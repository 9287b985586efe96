import Cyanurus.Mem.SlabRun

/-!
# What a step leaves alone

A block of pages belongs to the one who took it. Whatever the slab allocator and the
other holders of pages do, the page table entry and the bytes of such a block stay as
its holder left them; only its holder frees it or writes to it.

The allocator writes to memory in two ways: to the header and free array of a slab,
and to a fresh block. Both are apart from every block that others hold
(`Inv.slab_page_apart`, `Inv.take_block`).
-/

namespace Cyanurus.Slab

open Bytes

variable {s s' : World} {fl : Nat → List Nat} {fc cp : List Nat} {c p q : Nat}
  {t : Heap} {b : Buddy} {size obj d : Nat} {r : Option Nat} {name : List UInt8} {a : Act}
  {e : Halt} {w : World}

/-- The page and the bytes of its block are the same in both heaps. -/
structure PageKept (t t' : Heap) (q : Nat) : Prop where
  page : t'.buddy.pages q = t.buddy.pages q
  bytes : Agree t.mem t'.mem (pageAddress q) (2 ^ (t.buddy.pages q).order * pageSize)

theorem PageKept.of_mem {m : Bytes}
    (h : Agree t.mem m (pageAddress q) (2 ^ (t.buddy.pages q).order * pageSize)) :
    PageKept t { t with mem := m } q := ⟨rfl, h⟩

theorem PageKept.trans {u v : Heap} (h : PageKept t u q) (h' : PageKept u v q) :
    PageKept t v q := by
  refine ⟨h'.page.trans h.page, h.bytes.trans ?_⟩
  have := h'.bytes
  rwa [h.page] at this

/-- A slab and a block of others do not overlap. -/
theorem Inv.slab_page_apart (hi : Inv s fl fc cp) (hp : (c, p) ∈ s.slabs) (hq : q ∈ s.other) :
    Apart (pageAddress p) (s.heap.caches c).slabSize (pageAddress q)
      (2 ^ (s.heap.buddy.pages q).order * pageSize) := by
  obtain ⟨ord, free, w⟩ := hi.pool
  have hap := heads_apart w (hi.allocated p (mem_pages_slab hp)) (hi.allocated q (mem_pages_other hq))
    (hi.slab_other hp hq)
  have hsz := (hi.slab c p hp).2.1
  unfold Apart pageAddress pageSize at *
  omega

/-- Two blocks of others do not overlap. -/
theorem Inv.page_apart (hi : Inv s fl fc cp) (hp : p ∈ s.other) (hq : q ∈ s.other) (hne : p ≠ q) :
    Apart (pageAddress p) (2 ^ (s.heap.buddy.pages p).order * pageSize) (pageAddress q)
      (2 ^ (s.heap.buddy.pages q).order * pageSize) := by
  obtain ⟨ord, free, w⟩ := hi.pool
  have hap := heads_apart w (hi.allocated p (mem_pages_other hp)) (hi.allocated q (mem_pages_other hq))
    hne
  unfold Apart pageAddress pageSize at *
  omega

/-- A new block leaves the pages in use alone. -/
theorem Inv.block_kept (hi : Inv s fl fc cp) (hq : q ∈ s.pages cp)
    (h : buddyAlloc s.heap.buddy size = .ok (p, b)) : b.pages q = s.heap.buddy.pages q := by
  obtain ⟨ord, free, w⟩ := hi.pool
  obtain ⟨_, _, _, _, _, _, hkeep, _⟩ := Buddy.buddyAlloc_wf w h
  exact hkeep q (hi.allocated q hq)

/-! ## Objects -/

/-- Taking an object writes to the header and the free array of its slab. -/
theorem Inv.take_kept (hi : Inv s fl fc cp) {h : Nat} (hc : c ∈ s.created)
    (hpart : (s.heap.caches c).slabsPartial = some h) (hq : q ∈ s.other) :
    PageKept s.heap (slabTake s.heap c h).2 q := by
  obtain ⟨p, x, rest, rfl, hp, hx⟩ := hi.first_partial hc hpart
  have hok := (hi.slab c p hp).2.2
  rw [hx] at hok
  have hap := hi.slab_page_apart hp hq
  have hlay := (hi.sizes c hc).layout
  obtain ⟨m, _, hag, _, htake, htake'⟩ := slabTake_eq hok (hi.entry_lt hp) (hi.sizes c hc).num_lt
    (hi.object_lt hp (hok.lt x (List.mem_cons_self ..)))
  have hm : Agree s.heap.mem m (pageAddress q) (2 ^ (s.heap.buddy.pages q).order * pageSize) := by
    refine hag _ _ ?_
    unfold Apart at *
    omega
  by_cases hr : rest = []
  · rw [htake hr]
    refine ⟨rfl, hm.trans (store_agree _ _ ?_)⟩
    unfold Apart at *
    omega
  · rw [htake' hr]
    exact .of_mem hm

/-- `slab_cache_alloc` leaves the blocks of others alone. -/
theorem Inv.alloc_kept (hi : Inv s fl fc cp) (hc : c ∈ s.created)
    (h : slabCacheAlloc s.heap c = .ok (obj, t)) (hq : q ∈ s.other) : PageKept s.heap t q := by
  rcases slabCacheAlloc_cases h with ⟨a, hpart, htake⟩ | ⟨hpart, p, b, ha, htake⟩
  · have hk := hi.take_kept hc hpart hq
    rw [htake] at hk
    exact hk
  · have hi' := hi.newSlab hc hpart ha
    have hself := Heap.withSlab_self s.heap c p b
    have hk := hi'.take_kept hc (congrArg SlabCache.slabsPartial hself) hq
    rw [htake] at hk
    have hkept := hi.block_kept (mem_pages_other hq) ha
    have hlay := (hi.sizes c hc).layout
    refine PageKept.trans ⟨hkept, newMem_agree ?_⟩ hk
    -- the new slab is apart from all blocks in use
    have hap := hi'.slab_page_apart (List.mem_cons_self ..) hq
    rw [hself] at hap
    have hap : Apart (pageAddress p) (s.heap.caches c).slabSize (pageAddress q)
        (2 ^ (b.pages q).order * pageSize) := hap
    rw [hkept] at hap
    unfold Apart at *
    omega

/-- `slab_cache_free` leaves the blocks of others alone. -/
theorem Inv.free_kept (hi : Inv s fl fc cp) (hl : (c, obj) ∈ s.live)
    (h : slabCacheFree s.heap c obj = .ok t) (hq : q ∈ s.other) : PageKept s.heap t q := by
  obtain ⟨t', _, hok, _, hbuddy, hag⟩ := hi.free hl
  obtain rfl : t = t' := by rw [h] at hok; exact Except.ok.inj hok
  exact ⟨by rw [hbuddy], hag _ _ fun d p hp => hi.slab_page_apart hp hq⟩

/-! ## Caches -/

/-- `slab_cache_new` writes to no memory but a fresh page. -/
theorem Inv.cacheNew_kept (hi : Inv s fl fc cp) (h : slabCacheNew s.heap = .ok (c, t))
    (hq : q ∈ s.other) : PageKept s.heap t q := by
  obtain ⟨u, rfl | ⟨p, b, ha, rfl⟩, -, rfl⟩ := slabCacheNew_cases h
  · exact ⟨rfl, .refl _ _ _⟩
  · exact ⟨hi.block_kept (mem_pages_other hq) ha, .refl _ _ _⟩

/-- `slab_cache_create` leaves the blocks of others alone. -/
theorem Inv.create_kept (hi : Inv s fl fc cp)
    (h : slabCacheCreate s.heap name size = .ok (r, t)) (hq : q ∈ s.other) :
    PageKept s.heap t q := by
  rcases slabCacheCreate_cases h with ⟨-, rfl, -⟩ | ⟨c, u, u₁, hn, rfl, ⟨-, rfl, -⟩ | ⟨i, -, -, rfl⟩⟩
  · exact ⟨rfl, .refl _ _ _⟩
  -- what follows `slab_cache_new` assigns to the record of the cache
  · obtain ⟨hpage, hbytes⟩ := hi.cacheNew_kept hn hq
    exact ⟨hpage, hbytes⟩
  · obtain ⟨hpage, hbytes⟩ := hi.cacheNew_kept hn hq
    exact ⟨hpage, hbytes⟩

/-! ## Every step -/

/-- **A block stays as its holder left it, whatever the others do.** -/
theorem Step.page_kept (hi : Inv s fl fc cp) (h : Step s a s') (hq : q ∈ s.other)
    (hfree : a ≠ .pageFree q) (hwrite : a ≠ .pageWrite q) :
    q ∈ s'.other ∧ PageKept s.heap s'.heap q := by
  cases h with
  | create _ _ hr => exact ⟨hq, hi.create_kept hr hq⟩
  | alloc hc hr => exact ⟨hq, hi.alloc_kept hc hr hq⟩
  | free hl hr => exact ⟨hq, hi.free_kept hl hr hq⟩
  | @write c obj m hl hm =>
    refine ⟨hq, .of_mem fun x h1 h2 => hm x ?_⟩
    -- the object lies inside a slab
    obtain ⟨p, i, hp, hlt, _, rfl⟩ := (hi.live c obj).mp hl
    have hin := (hi.sizes c (hi.slab c p hp).1).inside (h := pageAddress p) hlt
    have hap := hi.slab_page_apart hp hq
    have hlow := hin.1
    unfold freeEntry at hlow
    unfold Apart at hap
    omega
  | pageAlloc hr =>
    exact ⟨List.mem_cons_of_mem _ hq, hi.block_kept (mem_pages_other hq) hr, .refl _ _ _⟩
  | @pageFree p b hp hr =>
    have hne : q ≠ p := fun he => hfree (by rw [he])
    refine ⟨(List.mem_erase_of_ne hne).mpr hq, ?_, .refl _ _ _⟩
    obtain ⟨ord, free, w⟩ := hi.pool
    obtain ⟨b', _, _, hok, _, hkeep, _⟩ := Buddy.buddyFree_wf w (hi.allocated p (mem_pages_other hp))
    rw [hr] at hok
    rw [Except.ok.inj hok]
    exact hkeep q hne (hi.allocated q (mem_pages_other hq))
  | @pageWrite p m x hp hm =>
    have hne : q ≠ p := fun he => hwrite (by rw [he])
    refine ⟨hq, Buddy.setPage_ne s.heap.buddy (fun r => { r with next := x }) hne,
      fun y h1 h2 => hm y ?_⟩
    have hap := hi.page_apart hp hq (Ne.symm hne)
    unfold Apart pageAddress pageSize at *
    omega

/-- An object stays live until it is freed. -/
theorem Step.live_kept {x : Nat × Nat} (h : Step s a s') (hx : x ∈ s.live)
    (ha : a ≠ .free x.1 x.2) : x ∈ s'.live := by
  cases h with
  | alloc => exact List.mem_cons_of_mem _ hx
  | @free c obj t hl hr =>
    have hne : x ≠ (c, obj) := fun he => ha (by rw [he])
    exact (List.mem_erase_of_ne hne).mpr hx
  | _ => exact hx

/-- A cache stays. -/
theorem Step.created_kept (h : Step s a s') (hc : c ∈ s.created) : c ∈ s'.created := by
  cases h with
  | create => exact List.mem_append_right _ hc
  | _ => exact hc

/-- `slab_cache_new` leaves the caches in use alone. -/
theorem Inv.cacheNew_created (hi : Inv s fl fc cp)
    (h : slabCacheNew s.heap = .ok (c, t)) (hd : d ∈ s.created) :
    d ≠ c ∧ t.caches d = s.heap.caches d := by
  obtain ⟨_, _, _, hc, _⟩ := hi.cacheNew h
  have hne : d ≠ c := fun he => hc (he ▸ hd)
  refine ⟨hne, ?_⟩
  obtain ⟨u, rfl | ⟨p, b, ha, rfl⟩, -, rfl⟩ := slabCacheNew_cases h
  · exact Heap.setCache_ne _ _ hne
  · refine (Heap.setCache_ne _ _ hne).trans ?_
    -- the page of new caches is none of the pages that hold caches in use
    obtain ⟨q, hq, h2, h3⟩ := hi.home d (Or.inl hd)
    have hqp : q ≠ p := fun he => (hi.take_block ha).2.1 (he ▸ mem_pages_cache hq)
    show Cyanurus.cachePage s.heap.caches (pageAddress p) d = _
    unfold Cyanurus.cachePage
    unfold pageAddress pageSize at *
    rw [if_neg (by omega)]

theorem Inv.create_sizes (hi : Inv s fl fc cp)
    (h : slabCacheCreate s.heap name size = .ok (r, t)) (hd : d ∈ s.created) :
    SameSizes (s.heap.caches d) (t.caches d) := by
  rcases slabCacheCreate_cases h with ⟨-, rfl, -⟩ | ⟨c, u, u₁, hn, rfl, hends⟩
  · exact ⟨rfl, rfl⟩
  obtain ⟨hne, hk⟩ := hi.cacheNew_created hn hd
  rcases hends with ⟨-, rfl, -⟩ | ⟨i, -, -, rfl⟩
  · rw [Heap.setCache_ne _ _ hne, hk]
    exact ⟨rfl, rfl⟩
  · rw [Heap.setCache_ne _ _ hne, Heap.setCache_ne _ _ hne, hk]
    exact ⟨rfl, rfl⟩

theorem slabCacheFree_sizes {t' : Heap} (h : slabCacheFree t c obj = .ok t')
    (d : Nat) : SameSizes (t.caches d) (t'.caches d) := by
  unfold slabCacheFree at h
  split at h
  · cases h
  simp only at h
  split at h
  · split at h
    · cases h
    · cases h
    · cases h
      have hframe := fun u h prev => slabToPartial_frame u c h prev
      by_cases he : d = c
      · obtain ⟨f, g, hself⟩ := (hframe _ _ _).2.2.2.1
        rw [he, hself]
        exact ⟨rfl, rfl⟩
      · rw [(hframe _ _ _).2.2.1 d he]
        exact ⟨rfl, rfl⟩
  · cases h
    exact ⟨rfl, rfl⟩

/-- The sizes of a cache stay. -/
theorem Step.sizes_kept (hi : Inv s fl fc cp) (h : Step s a s') (hc : c ∈ s.created) :
    SameSizes (s.heap.caches c) (s'.heap.caches c) := by
  cases h with
  | create _ _ hr => exact hi.create_sizes hr hc
  | alloc _ hr => exact slabCacheAlloc_sizes hr c
  | free _ hr => exact slabCacheFree_sizes hr c
  | _ => exact ⟨rfl, rfl⟩

/-- A cache of small objects has slabs of one page. -/
theorem slabCacheCreate_small {t' : Heap} (h0 : size ≠ 0)
    (hname : name.length < maxSlabName) (hsize : (size + 3) % 2 ^ 32 / 4 * 4 ≤ slabSizeLimits 0)
    (h : slabCacheCreate t name size = .ok (r, t')) :
    ∃ c, r = some c ∧ (t'.caches c).slabSize = pageSize := by
  have horder : slabOrder ((size + 3) % 2 ^ 32 / 4 * 4) 0 pageMaxDepth = some 0 := if_pos hsize
  rcases slabCacheCreate_cases h with ⟨-, -, hno⟩ | ⟨c, u, u₁, -, rfl, ⟨ho, -⟩ | ⟨i, ho, rfl, rfl⟩⟩
  · omega
  · rw [horder] at ho
    cases ho
  · cases horder.symm.trans ho
    refine ⟨c, rfl, ?_⟩
    rw [Heap.setCache_self]
    show pageSize * 1 <<< 0 = pageSize
    decide

/-! ## Running out of memory -/

theorem sizeOrder_some {n : Nat} : ∀ {m i : Nat}, size ≤ (1 <<< (i + n)) * pageSize → n ≤ m →
    ∃ k, sizeOrder size i (m + 1) = some k ∧ k ≤ i + n := by
  induction n with
  | zero =>
    intro m i h _
    exact ⟨i, if_pos h, Nat.le_refl i⟩
  | succ n ih =>
    intro m i h hm
    rw [sizeOrder]
    by_cases hs : size ≤ (1 <<< i) * pageSize
    · exact ⟨i, if_pos hs, Nat.le_add_right ..⟩
    · obtain ⟨m, rfl⟩ : ∃ m', m = m' + 1 := ⟨m - 1, by omega⟩
      obtain ⟨k, hk, hle⟩ := ih (m := m) (i := i + 1) (by rw [Nat.add_right_comm]; exact h) (by omega)
      exact ⟨k, by rw [if_neg hs]; exact hk, by omega⟩

/-- A request of at most 4 MB fails for want of memory only. -/
theorem buddyAlloc_error (hs : size ≤ 4 * 1024 * 1024)
    (h : buddyAlloc b size = .error e) : e = .outOfMemory := by
  obtain ⟨k, hk, -⟩ : ∃ k, sizeOrder size 0 pageMaxDepth = some k ∧ _ :=
    sizeOrder_some (n := 10) (i := 0) hs (Nat.le_refl 10)
  unfold buddyAlloc at h
  rw [hk] at h
  simp only at h
  split at h
  · cases h
  · rename_i b' _
    cases hp : buddyPullBlock b' k with
    | ok r =>
      rw [hp] at h
      cases h
    | error e' =>
      rw [hp] at h
      cases h
      unfold buddyPullBlock at hp
      split at hp
      · exact (Except.error.inj hp).symm
      · cases hp

/-- `slab_cache_alloc` fails for want of memory only. -/
theorem Inv.alloc_error (hi : Inv s fl fc cp) (hc : c ∈ s.created)
    (h : slabCacheAlloc s.heap c = .error e) : e = .outOfMemory := by
  cases hpart : (s.heap.caches c).slabsPartial with
  | some a =>
    rw [slabCacheAlloc_some hpart] at h
    cases h
  | none =>
    rw [slabCacheAlloc_none hpart] at h
    cases ha : buddyAlloc s.heap.buddy (s.heap.caches c).slabSize with
    | ok r =>
      rw [ha] at h
      cases h
    | error e' =>
      rw [ha] at h
      cases h
      exact buddyAlloc_error (hi.sizes c hc).size ha

/-! ## The calls, with what they hand out -/

/-- `buddy_alloc`, with the block entered among those that others hold. -/
def World.pageAlloc (s : World) (size : Nat) : Except Halt (Nat × World) := do
  let (p, b) ← buddyAlloc s.heap.buddy size
  .ok (p, { s with heap := { s.heap with buddy := b }, other := p :: s.other })

/-- `buddy_free` of such a block. -/
def World.pageFree (s : World) (p : Nat) : Except Halt World := do
  let b ← buddyFree s.heap.buddy p
  .ok { s with heap := { s.heap with buddy := b }, other := s.other.erase p }

/-- `slab_cache_alloc`, with the object entered among the live ones. -/
def World.cacheAlloc (s : World) (c : Nat) : Except Halt (Nat × World) := do
  let (obj, t) ← slabCacheAlloc s.heap c
  .ok (obj, { s with heap := t, slabs := s.newSlab c ++ s.slabs, live := (c, obj) :: s.live })

/-- `slab_cache_free` of such an object. -/
def World.cacheFree (s : World) (c obj : Nat) : Except Halt World := do
  let t ← slabCacheFree s.heap c obj
  .ok { s with heap := t, live := s.live.erase (c, obj) }

/-- The holder of a block writes to it. -/
def World.setMem (s : World) (m : Bytes) : World := { s with heap := { s.heap with mem := m } }

/-- The holder of a block assigns to `page->next`. -/
def World.setNext (s : World) (p : Nat) (x : Option Nat) : World :=
  { s with heap := { s.heap with buddy := s.heap.buddy.setPage p fun q => { q with next := x } } }

theorem World.pageAlloc_step (h : s.pageAlloc size = .ok (p, w)) :
    Step s (.pageAlloc size) w ∧ w.other = p :: s.other ∧ w.live = s.live := by
  obtain ⟨⟨q, b⟩, ha, h⟩ := bind_eq_ok h
  cases h
  exact ⟨.pageAlloc ha, rfl, rfl⟩

theorem World.pageFree_step (hp : p ∈ s.other) (h : s.pageFree p = .ok w) :
    Step s (.pageFree p) w ∧ w.other = s.other.erase p ∧ w.live = s.live := by
  obtain ⟨b, ha, h⟩ := bind_eq_ok h
  cases h
  exact ⟨.pageFree hp ha, rfl, rfl⟩

theorem World.cacheAlloc_step (hc : c ∈ s.created)
    (h : s.cacheAlloc c = .ok (obj, w)) :
    Step s (.alloc c) w ∧ w.other = s.other ∧ w.live = (c, obj) :: s.live := by
  obtain ⟨⟨o, t⟩, ha, h⟩ := bind_eq_ok h
  cases h
  exact ⟨.alloc hc ha, rfl, rfl⟩

theorem World.cacheFree_step (hl : (c, obj) ∈ s.live)
    (h : s.cacheFree c obj = .ok w) :
    Step s (.free c obj) w ∧ w.other = s.other ∧ w.live = s.live.erase (c, obj) := by
  obtain ⟨t, ha, h⟩ := bind_eq_ok h
  cases h
  exact ⟨.free hl ha, rfl, rfl⟩

theorem World.setNext_step (hp : p ∈ s.other) (x : Option Nat) :
    Step s (.pageWrite p) (s.setNext p x) :=
  .pageWrite hp fun _ _ => rfl

/-- Giving back a block that is held never halts. -/
theorem Inv.pageFree_ok (hi : Inv s fl fc cp) (hp : p ∈ s.other) : ∃ w, s.pageFree p = .ok w := by
  obtain ⟨ord, free, w⟩ := hi.pool
  obtain ⟨b, _, _, hok, _⟩ := Buddy.buddyFree_wf w (hi.allocated p (mem_pages_other hp))
  unfold World.pageFree
  rw [hok]
  exact ⟨_, rfl⟩

theorem Inv.cacheFree_ok (hi : Inv s fl fc cp) (hl : (c, obj) ∈ s.live) :
    ∃ w, s.cacheFree c obj = .ok w := by
  obtain ⟨t, _, hok, _⟩ := hi.free hl
  unfold World.cacheFree
  rw [hok]
  exact ⟨_, rfl⟩

end Cyanurus.Slab
