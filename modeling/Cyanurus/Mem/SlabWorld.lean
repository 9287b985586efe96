import Cyanurus.Mem.BuddyRun
import Cyanurus.Mem.SlabLists

/-!
# The world of the slab allocator

The world is the allocator together with what it has handed out: the caches, the
slabs of each cache, the live objects, and the pages that other parts of the kernel
hold. Its steps are `slab_cache_create`, `slab_cache_alloc`, `slab_cache_free` of a
live object, writes of the owners inside their objects, and page allocation by
everyone else.

The invariant keeps one free list per slab as ghost state. Memory is cut up by the
page allocator, so two slabs never meet (`heads_apart`), and inside a slab the
layout is arithmetic (`CacheOk`).
-/

namespace Cyanurus.Slab

open Bytes

/-! ## Layout -/

/-- The sizes of a cache that `slab_cache_create` has accepted. -/
structure CacheOk (c : SlabCache) : Prop where
  object : 0 < c.objectSize
  num : 0 < slabMaxObjectNum c
  size : c.slabSize ≤ 4 * 1024 * 1024

/-- The address of object `i` of the slab at `header`. -/
def objectAddr (c : SlabCache) (header i : Nat) : Nat :=
  freeEntry header (slabMaxObjectNum c + 1) + c.objectSize * i

variable {c : SlabCache} {h : Nat}

theorem CacheOk.layout (ok : CacheOk c) :
    12 + 4 * (slabMaxObjectNum c + 1) + c.objectSize * slabMaxObjectNum c ≤ c.slabSize := by
  have hpos := ok.num
  have hmul : slabMaxObjectNum c * (c.objectSize + 4) ≤ c.slabSize - slabHeaderSize :=
    Nat.div_mul_le_self _ _
  have hexp : slabMaxObjectNum c * (c.objectSize + 4)
      = c.objectSize * slabMaxObjectNum c + 4 * slabMaxObjectNum c := by
    rw [Nat.mul_add, Nat.mul_comm, Nat.mul_comm _ 4]
  unfold slabHeaderSize slabHeaderBytes at hmul
  omega

theorem CacheOk.num_lt (ok : CacheOk c) : slabMaxObjectNum c < 2 ^ 29 := by
  have := ok.layout
  have := ok.size
  omega

variable {i j size p q c' base : Nat} {name : List UInt8} {free : Nat → Prop}
  {ord : Nat → Option Nat} {b : Buddy} {m : Bytes} {t : Heap}

/-- An object lies behind the free array and ends inside the slab. -/
theorem CacheOk.inside (ok : CacheOk c) (hi : i < slabMaxObjectNum c) :
    freeEntry h (slabMaxObjectNum c + 1) ≤ objectAddr c h i
      ∧ objectAddr c h i + c.objectSize ≤ h + c.slabSize := by
  have hl := ok.layout
  have hm : c.objectSize * (i + 1) ≤ c.objectSize * slabMaxObjectNum c :=
    Nat.mul_le_mul_left _ hi
  rw [Nat.mul_succ] at hm
  unfold objectAddr freeEntry slabHeaderBytes
  omega

theorem objectAddr_apart (hne : i ≠ j) :
    Apart (objectAddr c h i) c.objectSize (objectAddr c h j) c.objectSize := by
  unfold Apart objectAddr
  rcases Nat.lt_or_gt_of_ne hne with hlt | hlt
  · have := Nat.mul_le_mul_left c.objectSize (Nat.succ_le_of_lt hlt)
    rw [Nat.mul_succ] at this
    omega
  · have := Nat.mul_le_mul_left c.objectSize (Nat.succ_le_of_lt hlt)
    rw [Nat.mul_succ] at this
    omega

theorem objectAddr_inj (ok : CacheOk c) (he : objectAddr c h i = objectAddr c h j) :
    i = j := by
  unfold objectAddr at he
  exact Nat.eq_of_mul_eq_mul_left ok.object (by omega)

/-- The size `slab_cache_create` chooses leaves room for objects. -/
theorem slabOrder_ok : ∀ (n : Nat) {size i k : Nat}, slabOrder size i n = some k →
    size ≤ slabSizeLimits k ∧ i ≤ k ∧ k < i + n
  | 0, _, _, _, hk => absurd hk (by simp [slabOrder])
  | n + 1, size, i, k, hk => by
    rw [slabOrder] at hk
    split at hk
    · cases hk
      exact ⟨by assumption, Nat.le_refl _, by omega⟩
    · have := slabOrder_ok n hk
      omega

theorem cacheOk_create {k : Nat} (hpos : 0 < size)
    (hk : slabOrder size 0 pageMaxDepth = some k) :
    CacheOk { c with name := name, objectSize := size, slabSize := pageSize * (1 <<< k) } := by
  obtain ⟨hle, _, hlt⟩ := slabOrder_ok pageMaxDepth hk
  have hpow : 1 <<< k = 2 ^ k := Nat.one_shiftLeft k
  have hmax : 2 ^ k ≤ 2 ^ 10 := Nat.pow_le_pow_right (by omega) (by
    unfold pageMaxDepth pageMaxOrder at hlt; omega)
  unfold slabSizeLimits slabHeaderSize at hle
  rw [hpow] at hle
  refine ⟨hpos, ?_, ?_⟩
  · unfold slabMaxObjectNum slabHeaderSize slabHeaderBytes
    refine Nat.div_pos ?_ (by simp)
    simp only [hpow]
    omega
  · simp only [hpow]
    unfold pageSize
    omega

/-- Two allocated blocks do not overlap. -/
theorem heads_apart
    (w : Buddy.Wf b ord free none) (hp : (b.pages p).firstPage = true)
    (hq : (b.pages q).firstPage = true) (hne : p ≠ q) :
    p + 2 ^ (b.pages p).order ≤ q ∨ q + 2 ^ (b.pages q).order ≤ p := by
  obtain ⟨⟨k, hk⟩, _, _⟩ := w.firstFlag.mp hp
  obtain ⟨⟨j, hj⟩, _, _⟩ := w.firstFlag.mp hq
  rw [w.order hk (by simp), w.order hj (by simp)]
  rcases Nat.lt_or_gt_of_ne hne with hlt | hlt
  · exact Or.inl (w.tiling.disjoint hk hj hlt)
  · exact Or.inr (w.tiling.disjoint hj hk hlt)

theorem head_inside
    (w : Buddy.Wf b ord free none) (hp : (b.pages p).firstPage = true) :
    p + 2 ^ (b.pages p).order ≤ pageNum := by
  obtain ⟨⟨k, hk⟩, _, _⟩ := w.firstFlag.mp hp
  rw [w.order hk (by simp)]
  exact w.tiling.inside hk

/-! ## The world -/

/-- The allocator and what it has handed out. -/
structure World where
  heap : Heap
  /-- The caches that exist. -/
  created : List Nat
  /-- Each slab with its cache, as the page it starts at. -/
  slabs : List (Nat × Nat)
  /-- Each live object with its cache. -/
  live : List (Nat × Nat)
  /-- The blocks of pages held by others. -/
  other : List Nat

/-- The slab that `slab_cache_alloc` makes when the cache has no partial one. -/
def World.newSlab (s : World) (c : Nat) : List (Nat × Nat) :=
  match (s.heap.caches c).slabsPartial with
  | some _ => []
  | none =>
    match buddyAlloc s.heap.buddy (s.heap.caches c).slabSize with
    | .ok (p, _) => [(c, p)]
    | .error _ => []

inductive Act where
  | create (name : List UInt8) (size : Nat)
  | alloc (cache : Nat)
  | free (cache obj : Nat)
  | write (cache obj : Nat)
  | pageAlloc (size : Nat)
  | pageFree (page : Nat)
  | pageWrite (page : Nat)

/-- The steps of the world. A call that halts is not a step. -/
inductive Step : World → Act → World → Prop where
  | create {s : World} {name : List UInt8} {size : Nat} {r : Option Nat} {t : Heap} :
      1 ≤ size → size < 2 ^ 32 - 3 → slabCacheCreate s.heap name size = .ok (r, t) →
      Step s (.create name size) { s with heap := t, created := r.toList ++ s.created }
  | alloc {s : World} {c obj : Nat} {t : Heap} :
      c ∈ s.created → slabCacheAlloc s.heap c = .ok (obj, t) →
      Step s (.alloc c)
        { s with heap := t, slabs := s.newSlab c ++ s.slabs, live := (c, obj) :: s.live }
  | free {s : World} {c obj : Nat} {t : Heap} :
      (c, obj) ∈ s.live → slabCacheFree s.heap c obj = .ok t →
      Step s (.free c obj) { s with heap := t, live := s.live.erase (c, obj) }
  | write {s : World} {c obj : Nat} {m : Bytes} :
      (c, obj) ∈ s.live →
      (∀ a, a < obj ∨ obj + (s.heap.caches c).objectSize ≤ a → m a = s.heap.mem a) →
      Step s (.write c obj) { s with heap := { s.heap with mem := m } }
  | pageAlloc {s : World} {size p : Nat} {b : Buddy} :
      buddyAlloc s.heap.buddy size = .ok (p, b) →
      Step s (.pageAlloc size) { s with heap := { s.heap with buddy := b }, other := p :: s.other }
  | pageFree {s : World} {p : Nat} {b : Buddy} :
      p ∈ s.other → buddyFree s.heap.buddy p = .ok b →
      Step s (.pageFree p)
        { s with heap := { s.heap with buddy := b }, other := s.other.erase p }
  | pageWrite {s : World} {p : Nat} {m : Bytes} {x : Option Nat} :
      p ∈ s.other →
      (∀ a, a < pageAddress p ∨ pageAddress (p + 2 ^ (s.heap.buddy.pages p).order) ≤ a →
        m a = s.heap.mem a) →
      Step s (.pageWrite p) { s with heap := { s.heap with
        mem := m, buddy := s.heap.buddy.setPage p fun q => { q with next := x } } }

/-- The slabs on a list of a cache, first one first. -/
def listed (s : World) (head : Option Nat) : List Nat := walk (slabNext s.heap.mem) pageNum head

/-- What holds of the world in every state. -/
structure World.Sound (s : World) : Prop where
  /-- The live objects are pairwise disjoint. -/
  disjoint : s.live.Pairwise fun x y =>
    Apart x.2 (s.heap.caches x.1).objectSize y.2 (s.heap.caches y.1).objectSize
  /-- A slab is an allocated block of at least `slab_size` bytes, and the only one at its page. -/
  block : (s.slabs.map Prod.snd).Nodup ∧ ∀ c p, (c, p) ∈ s.slabs →
    (s.heap.buddy.pages p).firstPage = true
      ∧ (s.heap.caches c).slabSize ≤ 2 ^ (s.heap.buddy.pages p).order * pageSize
  /-- A live object lies in a slab of its cache, behind the header and the free array. -/
  inside : ∀ c o, (c, o) ∈ s.live → ∃ p, (c, p) ∈ s.slabs
    ∧ freeEntry (pageAddress p) (slabMaxObjectNum (s.heap.caches c) + 1) ≤ o
    ∧ o + (s.heap.caches c).objectSize ≤ pageAddress p + (s.heap.caches c).slabSize
  /-- The lists of a cache end, and hold each of its slabs exactly once. -/
  lists : ∀ c ∈ s.created,
    Chain (slabNext s.heap.mem) (s.heap.caches c).slabsFull
        (listed s (s.heap.caches c).slabsFull)
      ∧ Chain (slabNext s.heap.mem) (s.heap.caches c).slabsPartial
        (listed s (s.heap.caches c).slabsPartial)
      ∧ (listed s (s.heap.caches c).slabsFull ++ listed s (s.heap.caches c).slabsPartial).Nodup
      ∧ ∀ a, a ∈ listed s (s.heap.caches c).slabsFull ++ listed s (s.heap.caches c).slabsPartial
        ↔ ∃ p, (c, p) ∈ s.slabs ∧ a = pageAddress p
  /-- A slab is on `slabs_full` exactly when all its objects are live. -/
  full : ∀ c p, (c, p) ∈ s.slabs →
    (pageAddress p ∈ listed s (s.heap.caches c).slabsFull ↔
      ∀ i, i < slabMaxObjectNum (s.heap.caches c) →
        (c, objectAddr (s.heap.caches c) (pageAddress p) i) ∈ s.live)
  /-- What `slab_cache_alloc` hands out next meets no live object. -/
  fresh : ∀ c obj t, c ∈ s.created → slabCacheAlloc s.heap c = .ok (obj, t) →
    ∀ x ∈ s.live, Apart obj (s.heap.caches c).objectSize x.2 (s.heap.caches x.1).objectSize
  /-- Freeing a live object never halts. -/
  unbroken : ∀ c o, (c, o) ∈ s.live → ∃ t, slabCacheFree s.heap c o = .ok t

/-! ## The invariant -/

/-- The pages in use: pages of caches, slabs, and the blocks of others. -/
def World.pages (s : World) (cp : List Nat) : List Nat := cp ++ s.slabs.map Prod.snd ++ s.other

/--
The invariant of a run. `fl` gives the free indices of the slab at a page, `fc` the
unused caches in list order, `cp` the pages that hold caches.
-/
structure Inv (s : World) (fl : Nat → List Nat) (fc cp : List Nat) : Prop where
  pool : ∃ ord free, Buddy.Wf s.heap.buddy ord free none
  /-- No page has two uses. -/
  nodup : (s.pages cp).Nodup
  /-- A page in use is the head of an allocated block. -/
  allocated : ∀ p ∈ s.pages cp, (s.heap.buddy.pages p).firstPage = true
  /-- The unused caches, linked. -/
  chain : Chain (fun c => (s.heap.caches c).next) s.heap.freeCacheHead fc
  unused : fc.Nodup ∧ ∀ c ∈ fc, c ∉ s.created ∧ (s.heap.caches c).slabSize = 0
    ∧ (s.heap.caches c).slabsFull = none ∧ (s.heap.caches c).slabsPartial = none
  /-- Every cache lies in a page of caches. -/
  home : ∀ c, c ∈ s.created ∨ c ∈ fc → ∃ p ∈ cp, pageAddress p ≤ c ∧ c < pageAddress p + pageSize
  sizes : ∀ c ∈ s.created, CacheOk (s.heap.caches c)
  slab : ∀ c p, (c, p) ∈ s.slabs → c ∈ s.created
    ∧ (s.heap.caches c).slabSize ≤ 2 ^ (s.heap.buddy.pages p).order * pageSize
    ∧ SlabOk s.heap.mem (slabMaxObjectNum (s.heap.caches c)) (pageAddress p) (fl p)
  lists : ∀ c ∈ s.created,
    Lists s.heap.mem (s.heap.caches c) (fun p => (c, p) ∈ s.slabs) (fun p => fl p = [])
  /-- The live objects are those whose index is not free. -/
  live : ∀ c o, (c, o) ∈ s.live ↔ ∃ p i, (c, p) ∈ s.slabs ∧ i < slabMaxObjectNum (s.heap.caches c)
    ∧ i ∉ fl p ∧ o = objectAddr (s.heap.caches c) (pageAddress p) i
  liveNodup : s.live.Nodup

variable {s : World} {fl : Nat → List Nat} {fc cp : List Nat}

theorem mem_pages_slab {c : Nat} (h : (c, p) ∈ s.slabs) : p ∈ s.pages cp :=
  List.mem_append_left _ (List.mem_append_right _ (List.mem_map.mpr ⟨(c, p), h, rfl⟩))

theorem mem_pages_other (h : p ∈ s.other) : p ∈ s.pages cp :=
  List.mem_append_right _ h

theorem mem_pages_cache (h : p ∈ cp) : p ∈ s.pages cp :=
  List.mem_append_left _ (List.mem_append_left _ h)

/-- A page is the slab of one cache only. -/
theorem Inv.slab_cache (hi : Inv s fl fc cp) {c : Nat} (h : (c, p) ∈ s.slabs)
    (h' : (c', p) ∈ s.slabs) : c = c' := by
  have hnd : (s.slabs.map Prod.snd).Nodup :=
    (List.nodup_append.mp (List.nodup_append.mp hi.nodup).1).2.1
  exact (Prod.mk.inj (List.inj_on_of_nodup_map hnd h h' rfl)).1

/-- A page of others is no slab. -/
theorem Inv.slab_other (hi : Inv s fl fc cp) {c : Nat} (h : (c, p) ∈ s.slabs)
    (h' : q ∈ s.other) : p ≠ q :=
  (List.nodup_append.mp hi.nodup).2.2 p
    (List.mem_append_right _ (List.mem_map.mpr ⟨(c, p), h, rfl⟩)) q h'

/-- A slab ends inside the pool. -/
theorem Inv.slab_inside (hi : Inv s fl fc cp) {c : Nat} (h : (c, p) ∈ s.slabs) :
    p < pageNum ∧ pageAddress p + (s.heap.caches c).slabSize ≤ pageStart + pageSize * pageNum := by
  obtain ⟨ord, free, w⟩ := hi.pool
  have hin := head_inside w (hi.allocated p (mem_pages_slab h))
  have hsz := (hi.slab c p h).2.1
  have hpos := Nat.two_pow_pos (s.heap.buddy.pages p).order
  unfold pageAddress pageSize at *
  omega

/-- Two slabs do not overlap. -/
theorem Inv.slab_apart (hi : Inv s fl fc cp) {c : Nat} (h : (c, p) ∈ s.slabs)
    (h' : (c', q) ∈ s.slabs) (hne : p ≠ q) :
    Apart (pageAddress p) (s.heap.caches c).slabSize (pageAddress q)
      (s.heap.caches c').slabSize := by
  obtain ⟨ord, free, w⟩ := hi.pool
  have hap := heads_apart w (hi.allocated p (mem_pages_slab h))
    (hi.allocated q (mem_pages_slab h')) hne
  have hp := (hi.slab c p h).2.1
  have hq := (hi.slab c' q h').2.1
  unfold Apart pageAddress pageSize at *
  omega

/-- The header and the free array end far below the end of memory. -/
theorem Inv.entry_lt (hi : Inv s fl fc cp) {c : Nat} (h : (c, p) ∈ s.slabs) :
    freeEntry (pageAddress p) (slabMaxObjectNum (s.heap.caches c) + 1) < 2 ^ 32 := by
  have h1 := (hi.slab_inside h).2
  have h2 := (hi.sizes c (hi.slab c p h).1).layout
  unfold freeEntry slabHeaderBytes pageStart pageSize pageNum at *
  omega

/-- Memory may change anywhere outside the headers and free arrays. -/
theorem Inv.mem (hi : Inv s fl fc cp)
    (hm : ∀ c p, (c, p) ∈ s.slabs → Agree s.heap.mem m (pageAddress p)
      (12 + 4 * (slabMaxObjectNum (s.heap.caches c) + 1))) :
    Inv { s with heap := { s.heap with mem := m } } fl fc cp := by
  refine ⟨hi.pool, hi.nodup, hi.allocated, hi.chain, hi.unused, hi.home, hi.sizes, ?_, ?_, hi.live,
    hi.liveNodup⟩
  · intro c p h
    obtain ⟨h1, h2, h3⟩ := hi.slab c p h
    exact ⟨h1, h2, h3.congr ((hm c p h).sub (by omega) (by omega))⟩
  · intro c hc
    refine (hi.lists c hc).congr fun p hp => ?_
    unfold slabNext
    rw [load_congr ((hm c p hp).sub (Nat.le_refl _) (by omega))]

/-- The page allocator may do anything that leaves the pages in use alone. -/
theorem Inv.buddy (hi : Inv s fl fc cp) (hw : ∃ ord free, Buddy.Wf b ord free none)
    (hb : ∀ p ∈ s.pages cp, (b.pages p).firstPage = true
      ∧ (b.pages p).order = (s.heap.buddy.pages p).order) :
    Inv { s with heap := { s.heap with buddy := b } } fl fc cp := by
  refine ⟨hw, hi.nodup, fun p hp => (hb p hp).1, hi.chain, hi.unused, hi.home, hi.sizes, ?_,
    hi.lists, hi.live, hi.liveNodup⟩
  intro c p h
  obtain ⟨h1, h2, h3⟩ := hi.slab c p h
  refine ⟨h1, ?_, h3⟩
  rw [(hb p (mem_pages_slab h)).2]
  exact h2

/-! ## Writes, and pages of others -/

/-- The owner of an object writes inside it. -/
theorem Inv.write (hi : Inv s fl fc cp) {c obj : Nat} (hl : (c, obj) ∈ s.live)
    (hm : ∀ a, a < obj ∨ obj + (s.heap.caches c).objectSize ≤ a → m a = s.heap.mem a) :
    Inv { s with heap := { s.heap with mem := m } } fl fc cp := by
  obtain ⟨p, i, hp, hlt, _, rfl⟩ := (hi.live c obj).mp hl
  have hin := (hi.sizes c (hi.slab c p hp).1).inside (h := pageAddress p) hlt
  refine hi.mem fun c' q hq x h1 h2 => hm x ?_
  have hlay := (hi.sizes c' (hi.slab c' q hq).1).layout
  by_cases he : q = p
  · -- the slab's own header ends before its objects
    subst he
    obtain rfl := hi.slab_cache hp hq
    have := hin.1
    unfold freeEntry slabHeaderBytes at this
    omega
  · have hap := hi.slab_apart hq hp he
    have := hin.1
    unfold Apart at hap
    unfold freeEntry at this
    omega

/-- A block taken from the page allocator is none of the pages in use. -/
theorem Inv.take_block (hi : Inv s fl fc cp)
    (h : buddyAlloc s.heap.buddy size = .ok (p, b)) :
    Inv { s with heap := { s.heap with buddy := b } } fl fc cp ∧ p ∉ s.pages cp
      ∧ (b.pages p).firstPage = true ∧ size ≤ 2 ^ (b.pages p).order * pageSize := by
  obtain ⟨ord, free, w⟩ := hi.pool
  obtain ⟨ord', free', w', h0, h1, hsz, hkeep, _⟩ := Buddy.buddyAlloc_wf w h
  refine ⟨hi.buddy ⟨ord', free', w'⟩ fun q hq => ?_, fun hp => ?_, h1, hsz⟩
  · rw [hkeep q (hi.allocated q hq)]
    exact ⟨hi.allocated q hq, rfl⟩
  · rw [hi.allocated p hp] at h0
    cases h0

theorem Inv.pageAlloc (hi : Inv s fl fc cp)
    (h : buddyAlloc s.heap.buddy size = .ok (p, b)) :
    Inv { s with heap := { s.heap with buddy := b }, other := p :: s.other } fl fc cp := by
  obtain ⟨hb, hfresh, h1, _⟩ := hi.take_block h
  refine ⟨hb.pool, ?_, ?_, hb.chain, hb.unused, hb.home, hb.sizes, hb.slab, hb.lists, hb.live,
    hb.liveNodup⟩
  · exact List.nodup_middle.mpr (List.nodup_cons.mpr ⟨hfresh, hi.nodup⟩)
  · intro q hq
    rcases List.mem_cons.mp (List.perm_middle.mem_iff.mp hq) with he | hq
    · rw [he]; exact h1
    · exact hb.allocated q hq

theorem Inv.pageFree (hi : Inv s fl fc cp) (hp : p ∈ s.other)
    (h : buddyFree s.heap.buddy p = .ok b) :
    Inv { s with heap := { s.heap with buddy := b }, other := s.other.erase p } fl fc cp := by
  obtain ⟨ord, free, w⟩ := hi.pool
  obtain ⟨b', ord', free', hok, w', hkeep, _⟩ :=
    Buddy.buddyFree_wf w (hi.allocated p (mem_pages_other hp))
  obtain rfl : b = b' := by rw [h] at hok; injection hok
  obtain ⟨hnd1, hnd2, hdis⟩ := List.nodup_append.mp hi.nodup
  -- what is left are other pages, which the merge does not touch
  have hleft : ∀ q ∈ cp ++ s.slabs.map Prod.snd ++ s.other.erase p, q ≠ p ∧ q ∈ s.pages cp := by
    intro q hq
    rcases List.mem_append.mp hq with hq | hq
    · exact ⟨hdis q hq p hp, List.mem_append_left _ hq⟩
    · exact ⟨(hnd2.mem_erase_iff.mp hq).1, List.mem_append_right _ (List.mem_of_mem_erase hq)⟩
  have hpage : ∀ q ∈ cp ++ s.slabs.map Prod.snd ++ s.other.erase p,
      b.pages q = s.heap.buddy.pages q :=
    fun q hq => hkeep q (hleft q hq).1 (hi.allocated q (hleft q hq).2)
  refine ⟨⟨ord', free', w'⟩, ?_, ?_, hi.chain, hi.unused, hi.home, hi.sizes, ?_, hi.lists, hi.live,
    hi.liveNodup⟩
  · exact List.nodup_append.mpr ⟨hnd1, hnd2.erase p, fun a ha c hc =>
      hdis a ha c (List.mem_of_mem_erase hc)⟩
  · intro q hq
    rw [hpage q hq]
    exact hi.allocated q (hleft q hq).2
  · intro c q hq
    obtain ⟨h1, h2, h3⟩ := hi.slab c q hq
    refine ⟨h1, ?_, h3⟩
    rw [hpage q (List.mem_append_left _ (List.mem_append_right _ (List.mem_map.mpr ⟨_, hq, rfl⟩)))]
    exact h2

/-- The holder of a block writes inside it. -/
theorem Inv.pageBytes (hi : Inv s fl fc cp) (hp : p ∈ s.other)
    (hm : ∀ a, a < pageAddress p ∨ pageAddress (p + 2 ^ (s.heap.buddy.pages p).order) ≤ a →
      m a = s.heap.mem a) :
    Inv { s with heap := { s.heap with mem := m } } fl fc cp := by
  obtain ⟨ord, free, w⟩ := hi.pool
  refine hi.mem fun c q hq a h1 h2 => hm a ?_
  have hap := heads_apart w (hi.allocated q (mem_pages_slab hq)) (hi.allocated p (mem_pages_other hp))
    (hi.slab_other hq hp)
  have hlay := (hi.sizes c (hi.slab c q hq).1).layout
  have hsz := (hi.slab c q hq).2.1
  unfold pageAddress pageSize at *
  omega

theorem Inv.pageWrite (hi : Inv s fl fc cp) {x : Option Nat}
    (hp : p ∈ s.other)
    (hm : ∀ a, a < pageAddress p ∨ pageAddress (p + 2 ^ (s.heap.buddy.pages p).order) ≤ a →
      m a = s.heap.mem a) :
    Inv { s with heap := { s.heap with
      mem := m, buddy := s.heap.buddy.setPage p fun q => { q with next := x } } } fl fc cp := by
  obtain ⟨ord, free, w⟩ := hi.pool
  have hfirst := hi.allocated p (mem_pages_other hp)
  refine (hi.pageBytes hp hm).buddy ⟨ord, free, w.touch hfirst⟩ fun q hq => ?_
  have hq := hi.allocated q hq
  by_cases he : q = p
  · subst he
    rw [Buddy.setPage_self]
    exact ⟨hq, rfl⟩
  · rw [Buddy.setPage_ne _ _ he]
    exact ⟨hq, rfl⟩

/-! ## Caches -/

/-- Only the caches in use and those on the free list count. -/
theorem Inv.caches (hi : Inv s fl fc cp) {g : Nat → SlabCache} {head : Option Nat} {fc' : List Nat}
    (hk : ∀ d ∈ s.created, g d = s.heap.caches d) (hc : Chain (fun d => (g d).next) head fc')
    (hu : fc'.Nodup ∧ ∀ d ∈ fc', d ∉ s.created ∧ (g d).slabSize = 0 ∧ (g d).slabsFull = none
      ∧ (g d).slabsPartial = none)
    (hh : ∀ d ∈ fc', ∃ p ∈ cp, pageAddress p ≤ d ∧ d < pageAddress p + pageSize) :
    Inv { s with heap := { s.heap with caches := g, freeCacheHead := head } } fl fc' cp := by
  refine ⟨hi.pool, hi.nodup, hi.allocated, hc, hu, fun d hd => ?_, fun d hd => ?_,
    fun d p hp => ?_, fun d hd => ?_, fun d o => ?_, hi.liveNodup⟩
  · exact hd.elim (fun h => hi.home d (Or.inl h)) (hh d)
  · simp only [hk d hd]
    exact hi.sizes d hd
  · simp only [hk d (hi.slab d p hp).1]
    exact hi.slab d p hp
  · simp only [hk d hd]
    exact hi.lists d hd
  · rw [hi.live d o]
    refine exists_congr fun p => exists_congr fun i => and_congr_right fun hp => ?_
    simp only [hk d (hi.slab d p hp).1]

/-- A cache that is neither in use nor on the free list may be written at will. -/
theorem Inv.setCache (hi : Inv s fl fc cp) {c : Nat} (f : SlabCache → SlabCache)
    (hc : c ∉ s.created) (hfc : c ∉ fc) : Inv { s with heap := s.heap.setCache c f } fl fc cp := by
  have hkeep : ∀ d, d ≠ c → (s.heap.setCache c f).caches d = s.heap.caches d :=
    fun d hd => Heap.setCache_ne _ _ hd
  have hne : ∀ d ∈ fc, d ≠ c := fun d hd he => hfc (by rw [← he]; exact hd)
  refine hi.caches (fun d hd => hkeep d fun he => hc (by rw [← he]; exact hd)) ?_
    ⟨hi.unused.1, fun d hd => ?_⟩ fun d hd => hi.home d (Or.inr hd)
  · exact hi.chain.congr fun d hd => congrArg SlabCache.next (hkeep d (hne d hd))
  · have hd' : Function.update s.heap.caches c (f (s.heap.caches c)) d = s.heap.caches d :=
      hkeep d (hne d hd)
    rw [hd']
    exact hi.unused.2 d hd

/-- The addresses of the caches in a page of caches, from index `j` on. -/
def cacheAddrs (base j n : Nat) : List Nat := (List.range' j n).map fun i => base + slabCacheBytes * i

theorem mem_cacheAddrs {n a : Nat} (h : a ∈ cacheAddrs base j n) (hn : j + n = 78) :
    base ≤ a ∧ a < base + pageSize := by
  obtain ⟨i, hi, rfl⟩ := List.mem_map.mp h
  have := List.mem_range'_1.mp hi
  unfold pageSize slabCacheBytes
  omega

theorem cacheAddrs_nodup (base n : Nat) : (cacheAddrs base 0 n).Nodup := by
  refine List.Nodup.map ?_ List.nodup_range'
  intro i j hij
  simp only [slabCacheBytes] at hij
  omega

theorem cachePage_chain (caches : Nat → SlabCache) (base : Nat) : ∀ {n j : Nat}, j + n = 77 →
    Chain (fun c => (cachePage caches base c).next) (some (base + slabCacheBytes * j))
      (cacheAddrs base j (n + 1))
  | 0, j, hj => by
    refine ⟨rfl, ?_⟩
    show (cachePage caches base (base + slabCacheBytes * j)).next = none
    unfold cachePage pageSize slabCacheBytes
    rw [if_pos ⟨by omega, by omega⟩, if_neg (by omega)]
  | n + 1, j, hj => by
    refine ⟨rfl, ?_⟩
    have hnext : (cachePage caches base (base + slabCacheBytes * j)).next
        = some (base + slabCacheBytes * (j + 1)) := by
      unfold cachePage pageSize slabCacheBytes
      rw [if_pos ⟨by omega, by omega⟩, if_pos ⟨by omega, by omega⟩]
      simp only [Option.some.injEq]
      omega
    show Chain _ (cachePage caches base (base + slabCacheBytes * j)).next _
    rw [hnext]
    exact cachePage_chain caches base (by omega)

theorem cachePage_zero (caches : Nat → SlabCache) {d : Nat}
    (hd : base ≤ d ∧ d < base + pageSize) : (cachePage caches base d).slabSize = 0
      ∧ (cachePage caches base d).slabsFull = none
      ∧ (cachePage caches base d).slabsPartial = none := by
  unfold cachePage
  rw [if_pos hd]
  split
  · exact ⟨rfl, rfl, rfl⟩
  · exact ⟨rfl, rfl, rfl⟩

/-- `slab_cache_new` on an empty list takes a page and links its caches. -/
theorem Inv.cachePage (hi : Inv s fl fc cp)
    (h : buddyAlloc s.heap.buddy pageSize = .ok (p, b)) :
    Inv { s with heap := { s.heap with
        buddy := b, caches := cachePage s.heap.caches (pageAddress p),
        freeCacheHead := some (pageAddress p) } }
      fl (cacheAddrs (pageAddress p) 0 78) (p :: cp) := by
  obtain ⟨hb, hfresh, h1, _⟩ := hi.take_block h
  have hhome : ∀ d ∈ s.created, d < pageAddress p ∨ pageAddress p + pageSize ≤ d := by
    intro d hd
    obtain ⟨q, hq, h2, h3⟩ := hi.home d (Or.inl hd)
    have hne : q ≠ p := fun he => hfresh (by rw [← he]; exact mem_pages_cache hq)
    unfold pageAddress pageSize at *
    omega
  have hcp : Inv { s with heap := { s.heap with buddy := b } } fl fc (p :: cp) := by
    refine ⟨hb.pool, List.nodup_cons.mpr ⟨hfresh, hi.nodup⟩, fun q hq => ?_, hb.chain, hb.unused,
      fun d hd => ?_, hb.sizes, hb.slab, hb.lists, hb.live, hb.liveNodup⟩
    · rcases List.mem_cons.mp hq with he | hq
      · rw [he]; exact h1
      · exact hb.allocated q hq
    · obtain ⟨q, hq, h2⟩ := hi.home d hd
      exact ⟨q, List.mem_cons_of_mem _ hq, h2⟩
  refine hcp.caches (fun d hd => ?_) (cachePage_chain s.heap.caches (pageAddress p)
    (Nat.zero_add 77)) ⟨cacheAddrs_nodup _ _, fun d hd => ?_⟩ fun d hd => ?_
  · have := hhome d hd
    unfold Cyanurus.cachePage
    rw [if_neg (by omega)]
  · have hin := mem_cacheAddrs hd (Nat.zero_add 78)
    refine ⟨fun hc => ?_, cachePage_zero _ hin⟩
    have := hhome d hc
    omega
  · exact ⟨p, List.mem_cons_self .., mem_cacheAddrs hd (Nat.zero_add 78)⟩

/-- Taking the first unused cache. -/
theorem Inv.cachePop (hi : Inv s fl fc cp) {c : Nat} (hc : s.heap.freeCacheHead = some c) :
    ∃ fc', fc = c :: fc' ∧
      Inv { s with heap := (Heap.setCache { s.heap with freeCacheHead := (s.heap.caches c).next } c
        fun x => { x with next := none }) } fl fc' cp := by
  have hch := hi.chain
  rw [hc] at hch
  obtain ⟨fc', rfl, hch'⟩ := hch.head_some
  obtain ⟨hnot, hnd⟩ := List.nodup_cons.mp hi.unused.1
  refine ⟨fc', rfl, ?_⟩
  have hpop : Inv { s with heap := { s.heap with freeCacheHead := (s.heap.caches c).next } }
      fl fc' cp :=
    hi.caches (fun d _ => rfl) hch'
      ⟨hnd, fun d hd => hi.unused.2 d (List.mem_cons_of_mem _ hd)⟩
      fun d hd => hi.home d (Or.inr (List.mem_cons_of_mem _ hd))
  exact hpop.setCache _ (hi.unused.2 c (List.mem_cons_self ..)).1 hnot

/-- **The ways `slab_cache_new` can go**: it takes the first unused cache, and there is one, or a
new page of them is linked. -/
theorem slabCacheNew_cases {c : Nat} {u : Heap} (h : slabCacheNew u = .ok (c, t)) : ∃ u',
    (u' = u ∨ ∃ p b, buddyAlloc u.buddy pageSize = .ok (p, b) ∧ u' = { u with
      buddy := b, caches := cachePage u.caches (pageAddress p), freeCacheHead := some (pageAddress p) })
    ∧ u'.freeCacheHead = some c
    ∧ t = Heap.setCache { u' with freeCacheHead := (u'.caches c).next } c fun x => { x with next := none } := by
  unfold slabCacheNew at h
  cases hhead : u.freeCacheHead with
  | some c' =>
    rw [hhead] at h
    cases h
    exact ⟨u, .inl rfl, hhead, rfl⟩
  | none =>
    rw [hhead] at h
    obtain ⟨⟨p, b⟩, ha, h⟩ := bind_eq_ok h
    cases h
    exact ⟨_, .inr ⟨p, b, ha, rfl⟩, rfl, rfl⟩

/-- `slab_cache_new` returns a cleared cache that is not in use. -/
theorem Inv.cacheNew (hi : Inv s fl fc cp) {c : Nat}
    (h : slabCacheNew s.heap = .ok (c, t)) :
    ∃ fc' cp', Inv { s with heap := t } fl fc' cp' ∧ c ∉ s.created ∧ c ∉ fc'
      ∧ (∃ p ∈ cp', pageAddress p ≤ c ∧ c < pageAddress p + pageSize)
      ∧ (t.caches c).slabSize = 0 ∧ (t.caches c).slabsFull = none
      ∧ (t.caches c).slabsPartial = none := by
  obtain ⟨u, hu, hhead, rfl⟩ := slabCacheNew_cases h
  obtain ⟨fc', cp', hi'⟩ : ∃ fc' cp', Inv { s with heap := u } fl fc' cp' := by
    rcases hu with rfl | ⟨p, b, ha, rfl⟩
    · exact ⟨fc, cp, hi⟩
    · exact ⟨_, _, hi.cachePage ha⟩
  obtain ⟨fc', rfl, hi''⟩ := hi'.cachePop hhead
  have hu := hi'.unused.2 c (List.mem_cons_self ..)
  refine ⟨fc', cp', hi'', hu.1, (List.nodup_cons.mp hi'.unused.1).1,
    hi'.home c (Or.inr (List.mem_cons_self ..)), ?_⟩
  rw [Heap.setCache_self]
  exact hu.2

/-- A cache with accepted sizes and no slabs joins those in use. -/
theorem Inv.addCache (hi : Inv s fl fc cp) {c : Nat} (hc : c ∉ s.created) (hfc : c ∉ fc)
    (hh : ∃ p ∈ cp, pageAddress p ≤ c ∧ c < pageAddress p + pageSize)
    (hok : CacheOk (s.heap.caches c)) (hfull : (s.heap.caches c).slabsFull = none)
    (hpart : (s.heap.caches c).slabsPartial = none) :
    Inv { s with created := c :: s.created } fl fc cp := by
  refine ⟨hi.pool, hi.nodup, hi.allocated, hi.chain, ⟨hi.unused.1, fun d hd => ?_⟩, fun d hd => ?_,
    fun d hd => ?_, fun d p hp => ?_, fun d hd => ?_, hi.live, hi.liveNodup⟩
  · have hu := hi.unused.2 d hd
    refine ⟨fun hm => ?_, hu.2⟩
    rcases List.mem_cons.mp hm with he | hm
    · exact hfc (by rw [← he]; exact hd)
    · exact hu.1 hm
  · rcases hd with hd | hd
    · rcases List.mem_cons.mp hd with he | hd
      · rw [he]; exact hh
      · exact hi.home d (Or.inl hd)
    · exact hi.home d (Or.inr hd)
  · rcases List.mem_cons.mp hd with he | hd
    · rw [he]; exact hok
    · exact hi.sizes d hd
  · obtain ⟨h1, h2⟩ := hi.slab d p hp
    exact ⟨List.mem_cons_of_mem _ h1, h2⟩
  · rcases List.mem_cons.mp hd with he | hd
    · subst he
      have hno : ∀ p, (d, p) ∉ s.slabs := fun p hp => hc (hi.slab d p hp).1
      refine ⟨[], [], hfull, hpart, List.nodup_nil, fun p => ?_, fun p => ?_⟩
      · simp [hno p]
      · simp [hno p]
    · exact hi.lists d hd

/-- **The ways `slab_cache_create` can go**: it refuses, or it takes a cache and sets its fields. -/
theorem slabCacheCreate_cases {u : Heap} {r : Option Nat} (h : slabCacheCreate u name size = .ok (r, t)) :
    r = none ∧ t = u ∧ (size = 0 ∨ name.length ≥ maxSlabName)
    ∨ ∃ c u' u₁, slabCacheNew u = .ok (c, u')
      ∧ u₁ = u'.setCache c (fun x => { x with name := name, objectSize := (size + 3) % 2 ^ 32 / 4 * 4 })
      ∧ (slabOrder ((size + 3) % 2 ^ 32 / 4 * 4) 0 pageMaxDepth = none ∧ t = u₁
          ∧ r = (if (u'.caches c).slabSize = 0 then none else some c)
        ∨ ∃ i, slabOrder ((size + 3) % 2 ^ 32 / 4 * 4) 0 pageMaxDepth = some i ∧ r = some c
          ∧ t = u₁.setCache c fun x => { x with slabSize := pageSize * (1 <<< i) }) := by
  unfold slabCacheCreate at h
  split at h
  · cases h
    exact .inl ⟨rfl, rfl, .inl ‹_›⟩
  split at h
  · cases h
    exact .inl ⟨rfl, rfl, .inr ‹_›⟩
  obtain ⟨⟨c, u'⟩, hn, h⟩ := bind_eq_ok h
  refine .inr ⟨c, u', _, hn, rfl, ?_⟩
  simp only [Heap.setCache_self] at h
  cases ho : slabOrder ((size + 3) % 2 ^ 32 / 4 * 4) 0 pageMaxDepth with
  | none =>
    simp only [ho, Heap.setCache_self] at h
    split at h <;> cases h
    · exact .inl ⟨rfl, rfl, (if_pos ‹_›).symm⟩
    · exact .inl ⟨rfl, rfl, (if_neg ‹_›).symm⟩
  | some i =>
    have hne : pageSize * (1 <<< i) ≠ 0 := by
      have := Nat.two_pow_pos i
      unfold pageSize
      omega
    simp only [ho, Heap.setCache_self, if_neg hne] at h
    cases h
    exact .inr ⟨i, rfl, rfl, rfl⟩

theorem Inv.create (hi : Inv s fl fc cp) {r : Option Nat}
    (h1 : 1 ≤ size) (h2 : size < 2 ^ 32 - 3)
    (h : slabCacheCreate s.heap name size = .ok (r, t)) :
    ∃ fc' cp', Inv { s with heap := t, created := r.toList ++ s.created } fl fc' cp' := by
  rcases slabCacheCreate_cases h with ⟨rfl, rfl, -⟩ | ⟨c, u, u₁, hn, rfl, hends⟩
  · exact ⟨fc, cp, hi⟩
  obtain ⟨fc', cp', hi1, hc, hfc, hh, hz, hfull, hpart⟩ := hi.cacheNew hn
  have hi2 := hi1.setCache
    (fun x => { x with name := name, objectSize := (size + 3) % 2 ^ 32 / 4 * 4 }) hc hfc
  refine ⟨fc', cp', ?_⟩
  rcases hends with ⟨-, rfl, rfl⟩ | ⟨i, ho, rfl, rfl⟩
  · rw [if_pos hz]
    exact hi2
  · have hi3 := hi2.setCache (fun x => { x with slabSize := pageSize * (1 <<< i) }) hc hfc
    refine hi3.addCache hc hfc hh ?_ ?_ ?_ <;> simp only [Heap.setCache_self]
    · exact cacheOk_create (by omega) ho
    · exact hfull
    · exact hpart

end Cyanurus.Slab
