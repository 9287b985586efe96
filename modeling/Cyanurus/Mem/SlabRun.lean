import Cyanurus.Lib.Run
import Cyanurus.Mem.SlabWorld

/-!
# Every run of the slab allocator

`slab_cache_alloc` and `slab_cache_free` rewrite the free list of one slab and
relink the slabs of its cache; `Inv.relist` says what such a step may do, and both
are instances of it. With the steps of the other callers this gives the invariant
for whole runs, and from it what a client can rely on (`World.Sound`).
-/

namespace Cyanurus.Slab

open Bytes Lts

variable {s : World} {fl : Nat → List Nat} {fc cp : List Nat} {t : Heap} {c p q i h obj : Nat} {b : Buddy}

/-! ## Objects -/

/-- The sizes of the two caches are the same. -/
def SameSizes (c c' : SlabCache) : Prop :=
  c'.objectSize = c.objectSize ∧ c'.slabSize = c.slabSize

namespace SameSizes

variable {x y : SlabCache}

theorem max (h : SameSizes x y) : slabMaxObjectNum y = slabMaxObjectNum x := by
  unfold slabMaxObjectNum
  rw [h.1, h.2]

theorem addr (h : SameSizes x y) (a i : Nat) : objectAddr y a i = objectAddr x a i := by
  unfold objectAddr
  rw [h.max, h.1]

theorem ok (h : SameSizes x y) (hx : CacheOk x) : CacheOk y :=
  ⟨h.1 ▸ hx.object, h.max ▸ hx.num, h.2 ▸ hx.size⟩

end SameSizes

/--
What `slab_cache_alloc` and `slab_cache_free` do to the world: they rewrite the free
list of one slab, relink the slabs of its cache, and change the set of live objects.
-/
theorem Inv.relist (hi : Inv s fl fc cp) (hp : (c, p) ∈ s.slabs)
    {f g : Option Nat} {fl' : Nat → List Nat} {live' : List (Nat × Nat)}
    (hb : t.buddy = s.heap.buddy) (hh : t.freeCacheHead = s.heap.freeCacheHead)
    (hne : ∀ d, d ≠ c → t.caches d = s.heap.caches d)
    (hc : t.caches c = { s.heap.caches c with slabsFull := f, slabsPartial := g })
    (hfl : ∀ q, q ≠ p → fl' q = fl q)
    (hok : SlabOk t.mem (slabMaxObjectNum (s.heap.caches c)) (pageAddress p) (fl' p))
    (hmeta : ∀ d q, (d, q) ∈ s.slabs → q ≠ p → Agree s.heap.mem t.mem (pageAddress q + 4)
      (8 + 4 * (slabMaxObjectNum (s.heap.caches d) + 1)))
    (hnext : ∀ d q, (d, q) ∈ s.slabs → d ≠ c →
      slabNext t.mem (pageAddress q) = slabNext s.heap.mem (pageAddress q))
    (hlists : Lists t.mem (t.caches c) (fun q => (c, q) ∈ s.slabs) (fun q => fl' q = []))
    (hlive : ∀ d o, (d, o) ∈ live' ↔ ∃ q i, (d, q) ∈ s.slabs
      ∧ i < slabMaxObjectNum (s.heap.caches d) ∧ i ∉ fl' q
      ∧ o = objectAddr (s.heap.caches d) (pageAddress q) i)
    (hnd : live'.Nodup) : Inv { s with heap := t, live := live' } fl' fc cp := by
  have hsame : ∀ d, (t.caches d).next = (s.heap.caches d).next
      ∧ SameSizes (s.heap.caches d) (t.caches d) := by
    intro d
    by_cases he : d = c
    · rw [he, hc]; exact ⟨rfl, rfl, rfl⟩
    · rw [hne d he]; exact ⟨rfl, rfl, rfl⟩
  have hcm := (hi.slab c p hp).1
  refine ⟨by rw [hb]; exact hi.pool, hi.nodup, by rw [hb]; exact hi.allocated, ?_,
    ⟨hi.unused.1, fun d hd => ?_⟩, hi.home, fun d hd => (hsame d).2.ok (hi.sizes d hd),
    fun d q hq => ?_, fun d hd => ?_, fun d o => ?_, hnd⟩
  · rw [hh]
    exact hi.chain.congr fun d _ => (hsame d).1
  · have hu := hi.unused.2 d hd
    rw [hne d fun he => hu.1 (by rw [he]; exact hcm)]
    exact hu
  · obtain ⟨h1, h2, h3⟩ := hi.slab d q hq
    refine ⟨h1, ?_, ?_⟩
    · rw [(hsame d).2.2, hb]
      exact h2
    · rw [(hsame d).2.max]
      by_cases he : q = p
      · subst he
        obtain rfl := hi.slab_cache hp hq
        exact hok
      · rw [hfl q he]
        exact h3.congr (hmeta d q hq he)
  · by_cases he : d = c
    · subst he; exact hlists
    · rw [hne d he]
      refine ((hi.lists d hd).congr fun q hq => hnext d q hq he).iff (fun _ => Iff.rfl) ?_
      intro q hq
      rw [hfl q fun hqp => he (hi.slab_cache hq (by rw [hqp]; exact hp))]
  · rw [hlive d o]
    refine exists_congr fun q => exists_congr fun i => ?_
    rw [(hsame d).2.max, (hsame d).2.addr]

/-- An address is that of one object only. -/
theorem Inv.object_inj (hi : Inv s fl fc cp) {j : Nat} (hp : (c, p) ∈ s.slabs)
    (hq : (c, q) ∈ s.slabs) (hlt : i < slabMaxObjectNum (s.heap.caches c))
    (hlt' : j < slabMaxObjectNum (s.heap.caches c))
    (he : objectAddr (s.heap.caches c) (pageAddress p) i
      = objectAddr (s.heap.caches c) (pageAddress q) j) : p = q ∧ i = j := by
  have hok := hi.sizes c (hi.slab c p hp).1
  by_cases hpq : p = q
  · subst hpq
    exact ⟨rfl, objectAddr_inj hok he⟩
  · have hap := hi.slab_apart hp hq hpq
    have h1 := hok.inside (h := pageAddress p) hlt
    have h2 := hok.inside (h := pageAddress q) hlt'
    unfold Apart at hap
    unfold freeEntry at h1 h2
    omega

/-- The objects that are not free, when index `i` of a slab is free besides `l` and when it is not. -/
theorem Inv.objects_cons (hi : Inv s fl fc cp) (hp : (c, p) ∈ s.slabs) {l : List Nat}
    (hlt : i < slabMaxObjectNum (s.heap.caches c)) (hl : i ∉ l) (d o : Nat) :
    (∃ q j, (d, q) ∈ s.slabs ∧ j < slabMaxObjectNum (s.heap.caches d)
        ∧ j ∉ Function.update fl p l q ∧ o = objectAddr (s.heap.caches d) (pageAddress q) j) ↔
      (d, o) = (c, objectAddr (s.heap.caches c) (pageAddress p) i) ∨
        ∃ q j, (d, q) ∈ s.slabs ∧ j < slabMaxObjectNum (s.heap.caches d)
          ∧ j ∉ Function.update fl p (i :: l) q ∧ o = objectAddr (s.heap.caches d) (pageAddress q) j := by
  constructor
  · rintro ⟨q, j, hq, hj, hnot, rfl⟩
    by_cases he : q = p
    · subst he
      obtain rfl := hi.slab_cache hp hq
      by_cases hji : j = i
      · exact .inl (by rw [hji])
      · refine .inr ⟨q, j, hq, hj, ?_, rfl⟩
        rw [Function.update_self] at hnot ⊢
        exact fun hm => (List.mem_cons.mp hm).elim hji hnot
    · refine .inr ⟨q, j, hq, hj, ?_, rfl⟩
      rwa [Function.update_of_ne he] at hnot ⊢
  · rintro (he | ⟨q, j, hq, hj, hnot, rfl⟩)
    · cases he
      exact ⟨p, i, hp, hlt, by rwa [Function.update_self], rfl⟩
    · refine ⟨q, j, hq, hj, fun hm => hnot ?_, rfl⟩
      by_cases he : q = p
      · subst he
        rw [Function.update_self] at hm ⊢
        exact List.mem_cons_of_mem _ hm
      · rwa [Function.update_of_ne he] at hm ⊢

/-- The header and the array of one slab are apart from the header and array of another. -/
theorem Inv.meta_apart (hi : Inv s fl fc cp) {d : Nat} (hp : (c, p) ∈ s.slabs)
    (hq : (d, q) ∈ s.slabs) (hne : q ≠ p) :
    Apart (pageAddress p) (12 + 4 * (slabMaxObjectNum (s.heap.caches c) + 1)) (pageAddress q)
      (12 + 4 * (slabMaxObjectNum (s.heap.caches d) + 1)) := by
  have hap := hi.slab_apart hp hq (Ne.symm hne)
  have h1 := (hi.sizes c (hi.slab c p hp).1).layout
  have h2 := (hi.sizes d (hi.slab d q hq).1).layout
  unfold Apart at *
  omega

/-- Memory written to inside the header and the array of one slab only: those of the others
are as they were, and so are the links. -/
theorem Inv.meta_kept (hi : Inv s fl fc cp) (hp : (c, p) ∈ s.slabs) {m : Bytes}
    (hag : ∀ a k, Apart (pageAddress p + 4) (8 + 4 * (slabMaxObjectNum (s.heap.caches c) + 1)) a k →
      Agree s.heap.mem m a k) {d : Nat} (hq : (d, q) ∈ s.slabs) :
    (q ≠ p → Agree s.heap.mem m (pageAddress q)
        (12 + 4 * (slabMaxObjectNum (s.heap.caches d) + 1)))
      ∧ slabNext m (pageAddress q) = slabNext s.heap.mem (pageAddress q) := by
  have hmeta : q ≠ p → Agree s.heap.mem m (pageAddress q)
      (12 + 4 * (slabMaxObjectNum (s.heap.caches d) + 1)) := by
    intro hne
    refine hag _ _ ?_
    have := hi.meta_apart hp hq hne
    unfold Apart at *
    omega
  refine ⟨hmeta, ?_⟩
  unfold slabNext
  by_cases he : q = p
  · rw [he, load_congr (hag (pageAddress p) 4 (by unfold Apart; omega))]
  · rw [load_congr ((hmeta he).sub (Nat.le_refl _) (by omega))]

/-- `slab_cache_alloc` on a slab whose first free index is `x`. -/
theorem slabTake_eq {x : Nat} {rest : List Nat}
    (ok : SlabOk t.mem (slabMaxObjectNum (t.caches c)) h (x :: rest))
    (hb : freeEntry h (slabMaxObjectNum (t.caches c) + 1) < 2 ^ 32)
    (hnum : slabMaxObjectNum (t.caches c) < 2 ^ 29)
    (hobj : objectAddr (t.caches c) h x < 2 ^ 32) :
    ∃ m, SlabOk m (slabMaxObjectNum (t.caches c)) h rest
      ∧ (∀ a k, Apart (h + 4) (8 + 4 * (slabMaxObjectNum (t.caches c) + 1)) a k →
          Agree t.mem m a k)
      ∧ (slabTake t c h).1 = objectAddr (t.caches c) h x
      ∧ (rest = [] → (slabTake t c h).2 =
          Heap.setCache { t with mem := m.store 4 h (ptrWord (t.caches c).slabsFull) } c
            fun y => { y with slabsPartial := slabNext m h, slabsFull := some h })
      ∧ (rest ≠ [] → (slabTake t c h).2 = { t with mem := m }) := by
  obtain ⟨hidx, hok, hend⟩ := ok.take hb hnum
  have hxlt := ok.lt x (List.mem_cons_self ..)
  refine ⟨_, hok, fun a k ha => takeMem_agree (Nat.le_of_lt hxlt) ha, ?_⟩
  unfold slabTake
  simp only [hidx]
  rw [show (t.mem.store 4 (freeEntry h x) slabFreeEnd).store 4 (h + 4)
    (freeEntry h (t.mem.load 4 (t.mem.load 4 (h + 4))))
      = takeMem t.mem h x (t.mem.load 4 (t.mem.load 4 (h + 4))) from rfl]
  generalize takeMem t.mem h x (t.mem.load 4 (t.mem.load 4 (h + 4))) = m at *
  have hmod : (freeEntry h (slabMaxObjectNum (t.caches c) + 1) + (t.caches c).objectSize * x)
      % 2 ^ 32 = objectAddr (t.caches c) h x := Nat.mod_eq_of_lt hobj
  refine ⟨?_, fun hr => by rw [if_pos (hend.mpr hr)], fun hr => by
    rw [if_neg fun he => hr (hend.mp he)]⟩
  split
  · simp only [Heap.setCache_self]
    show ((m.store 4 h (ptrWord (t.caches c).slabsFull)).load 4 (h + 8)
      + (t.caches c).objectSize * x) % 2 ^ 32 = _
    rw [load_store_apart _ _ (by unfold Apart; omega), hok.object, hmod]
  · rw [hok.object, hmod]

theorem Inv.object_lt (hi : Inv s fl fc cp) (hp : (c, p) ∈ s.slabs)
    (hlt : i < slabMaxObjectNum (s.heap.caches c)) :
    objectAddr (s.heap.caches c) (pageAddress p) i < 2 ^ 32 := by
  have h1 := (hi.slab_inside hp).2
  have h2 := (hi.sizes c (hi.slab c p hp).1).inside (h := pageAddress p) hlt
  unfold pageStart pageSize pageNum at h1
  omega

/-- The first partial slab of a cache, and its first free index. -/
theorem Inv.first_partial (hi : Inv s fl fc cp) (hc : c ∈ s.created)
    (hpart : (s.heap.caches c).slabsPartial = some h) :
    ∃ p x rest, h = pageAddress p ∧ (c, p) ∈ s.slabs ∧ fl p = x :: rest := by
  obtain ⟨lf, lp, _, hcp, _, _, hlp⟩ := hi.lists c hc
  rw [hpart] at hcp
  cases lp with
  | nil => cases hcp
  | cons p lp =>
    obtain ⟨hp, hne⟩ := (hlp p).mp (List.mem_cons_self ..)
    obtain ⟨x, rest, hx⟩ := List.exists_cons_of_ne_nil hne
    exact ⟨p, x, rest, Option.some.inj hcp.1, hp, hx⟩

/-- A cache with a partial slab hands out the first free object of that slab. -/
theorem Inv.take (hi : Inv s fl fc cp) (hc : c ∈ s.created)
    (hpart : (s.heap.caches c).slabsPartial = some h) :
    ∃ fl', Inv { s with heap := (slabTake s.heap c h).2,
                        live := (c, (slabTake s.heap c h).1) :: s.live } fl' fc cp := by
  obtain ⟨p, x, rest, rfl, hp, hx⟩ := hi.first_partial hc hpart
  have hok := (hi.slab c p hp).2.2
  have hsize := hi.sizes c hc
  rw [hx] at hok
  have hxlt := hok.lt x (List.mem_cons_self ..)
  obtain ⟨hxrest, _⟩ := List.nodup_cons.mp hok.nodup
  obtain ⟨m, hm, hag, hobj, htake, htake'⟩ :=
    slabTake_eq hok (hi.entry_lt hp) hsize.num_lt (hi.object_lt hp hxlt)
  rw [hobj]
  have hfl : ∀ q, q ≠ p → Function.update fl p rest q = fl q :=
    fun q hq => Function.update_of_ne hq _ _
  have hflp : Function.update fl p rest p = rest := Function.update_self ..
  -- what `slab_cache_alloc` writes stays inside the header and the array
  have hmeta := fun d q (hq : (d, q) ∈ s.slabs) => (hi.meta_kept hp hag hq).1
  have hnext := fun d q (hq : (d, q) ∈ s.slabs) => (hi.meta_kept hp hag hq).2
  have hlive : ∀ d o, (d, o) ∈ (c, objectAddr (s.heap.caches c) (pageAddress p) x) :: s.live ↔
      ∃ q i, (d, q) ∈ s.slabs ∧ i < slabMaxObjectNum (s.heap.caches d)
        ∧ i ∉ Function.update fl p rest q
        ∧ o = objectAddr (s.heap.caches d) (pageAddress q) i := by
    intro d o
    rw [List.mem_cons, hi.live d o, hi.objects_cons hp hxlt hxrest d o, ← hx, Function.update_eq_self]
  have hnd : ((c, objectAddr (s.heap.caches c) (pageAddress p) x) :: s.live).Nodup := by
    refine List.nodup_cons.mpr ⟨fun hmem => ?_, hi.liveNodup⟩
    obtain ⟨q, i, hq, hlt, hnot, he⟩ := (hi.live _ _).mp hmem
    obtain ⟨rfl, rfl⟩ := hi.object_inj hp hq hxlt hlt he
    rw [hx] at hnot
    exact hnot (List.mem_cons_self ..)
  have hlt : ∀ q, (c, q) ∈ s.slabs → q < pageNum := fun q hq => (hi.slab_inside hq).1
  have hlm : Lists m (s.heap.caches c) (fun q => (c, q) ∈ s.slabs) (fun q => fl q = []) :=
    (hi.lists c hc).congr fun q hq => hnext c q hq
  refine ⟨Function.update fl p rest, ?_⟩
  by_cases hr : rest = []
  · rw [htake hr]
    have hmove := hlm.toFull hlt hpart
    refine hi.relist hp (f := some (pageAddress p)) (g := slabNext m (pageAddress p)) rfl rfl ?_ ?_ hfl
      ?_ ?_ ?_ ?_ hlive hnd
    · intro d hd
      rw [Heap.setCache_ne _ _ hd]
    · rw [Heap.setCache_self]
    · rw [hflp]
      refine hm.congr (store_agree _ _ ?_)
      unfold Apart; omega
    · intro d q hq hne
      refine ((hmeta d q hq hne).sub (by omega) (by omega)).trans (store_agree _ _ ?_)
      have := hi.meta_apart hp hq hne
      unfold Apart at *
      omega
    · intro d q hq hd
      have hne : q ≠ p := fun he => hd (hi.slab_cache hq (by rw [he]; exact hp))
      show slabNext (m.store 4 (pageAddress p) _) (pageAddress q) = _
      rw [slabNext_store_ne _ _ hne]
      exact hnext d q hq
    · rw [Heap.setCache_self]
      refine hmove.iff (fun _ => Iff.rfl) fun q hq => ?_
      by_cases he : q = p
      · rw [he, hflp]
        exact ⟨fun _ => Or.inr rfl, fun _ => hr⟩
      · rw [hfl q he]
        exact ⟨Or.inl, fun ho => ho.resolve_right he⟩
  · rw [htake' hr]
    refine hi.relist hp rfl rfl (fun d _ => rfl) rfl hfl ?_ ?_ (fun d q hq _ => hnext d q hq) ?_
      hlive hnd
    · rw [hflp]; exact hm
    · intro d q hq hne
      exact (hmeta d q hq hne).sub (by omega) (by omega)
    · refine hlm.iff (fun _ => Iff.rfl) fun q hq => ?_
      by_cases he : q = p
      · rw [he, hflp, hx]
        exact ⟨fun h => absurd h hr, fun h => absurd h (by simp)⟩
      · rw [hfl q he]

/-- A block with all its objects free becomes the partial slab of a cache that has none. -/
theorem Inv.addSlab (hi : Inv s fl fc cp) (hc : c ∈ s.created)
    (hnone : (s.heap.caches c).slabsPartial = none) (hfresh : p ∉ s.pages cp)
    (hfirst : (s.heap.buddy.pages p).firstPage = true)
    (hsz : (s.heap.caches c).slabSize ≤ 2 ^ (s.heap.buddy.pages p).order * pageSize)
    (hok : SlabOk s.heap.mem (slabMaxObjectNum (s.heap.caches c)) (pageAddress p)
      (List.range (slabMaxObjectNum (s.heap.caches c))))
    (hnext : slabNext s.heap.mem (pageAddress p) = none) :
    Inv { s with
      heap := s.heap.setCache c fun x => { x with slabsPartial := some (pageAddress p) }
      slabs := (c, p) :: s.slabs }
      (Function.update fl p (List.range (slabMaxObjectNum (s.heap.caches c)))) fc cp := by
  have hnew : ∀ d, (d, p) ∉ s.slabs := fun d hd => hfresh (mem_pages_slab hd)
  have hfl : ∀ d q, (d, q) ∈ s.slabs →
      Function.update fl p (List.range (slabMaxObjectNum (s.heap.caches c))) q = fl q :=
    fun d q hq => Function.update_of_ne (fun he => hnew d (by rw [← he]; exact hq)) _ _
  have hflp : Function.update fl p (List.range (slabMaxObjectNum (s.heap.caches c))) p
      = List.range (slabMaxObjectNum (s.heap.caches c)) := Function.update_self ..
  generalize hF : Function.update fl p (List.range (slabMaxObjectNum (s.heap.caches c))) = fl' at *
  have hself := Heap.setCache_self s.heap c fun x => { x with slabsPartial := some (pageAddress p) }
  have hne : ∀ d, d ≠ c → (s.heap.setCache c fun x =>
      { x with slabsPartial := some (pageAddress p) }).caches d = s.heap.caches d :=
    fun d hd => Heap.setCache_ne _ _ hd
  generalize hT : s.heap.setCache c (fun x => { x with slabsPartial := some (pageAddress p) }) = t
    at *
  have hbuddy : t.buddy = s.heap.buddy := by rw [← hT]; rfl
  have hmem : t.mem = s.heap.mem := by rw [← hT]; rfl
  have hhead : t.freeCacheHead = s.heap.freeCacheHead := by rw [← hT]; rfl
  have hsame : ∀ d, (t.caches d).next = (s.heap.caches d).next
      ∧ SameSizes (s.heap.caches d) (t.caches d) := by
    intro d
    by_cases he : d = c
    · rw [he, hself]; exact ⟨rfl, rfl, rfl⟩
    · rw [hne d he]; exact ⟨rfl, rfl, rfl⟩
  refine ⟨by rw [hbuddy]; exact hi.pool, ?_, ?_, ?_, ⟨hi.unused.1, fun d hd => ?_⟩, hi.home,
    fun d hd => (hsame d).2.ok (hi.sizes d hd), fun d q hq => ?_, fun d hd => ?_, fun d o => ?_, hi.liveNodup⟩
  · show (cp ++ p :: s.slabs.map Prod.snd ++ s.other).Nodup
    rw [List.append_assoc, List.cons_append]
    refine List.nodup_middle.mpr (List.nodup_cons.mpr ⟨?_, ?_⟩)
    · rw [← List.append_assoc]; exact hfresh
    · rw [← List.append_assoc]; exact hi.nodup
  · intro q hq
    have hq' : q ∈ cp ++ p :: (s.slabs.map Prod.snd ++ s.other) := by
      rw [← List.cons_append, ← List.append_assoc]; exact hq
    rw [hbuddy]
    rcases List.mem_cons.mp (List.perm_middle.mem_iff.mp hq') with he | hq
    · rw [he]; exact hfirst
    · rw [← List.append_assoc] at hq
      exact hi.allocated q hq
  · rw [hhead]
    exact hi.chain.congr fun d _ => (hsame d).1
  · have hu := hi.unused.2 d hd
    rw [hne d fun he => hu.1 (by rw [he]; exact hc)]
    exact hu
  · rw [(hsame d).2.max, (hsame d).2.2, hbuddy, hmem]
    rcases List.mem_cons.mp hq with he | hq
    · obtain ⟨rfl, rfl⟩ := Prod.mk.inj he
      rw [hflp]
      exact ⟨hc, hsz, hok⟩
    · rw [hfl d q hq]
      exact hi.slab d q hq
  · rw [hmem]
    by_cases he : d = c
    · subst he
      rw [hself]
      have hpos : ¬ fl' p = [] := by
        rw [hflp]
        have := (hi.sizes d hd).num
        exact fun h0 => absurd (List.range_eq_nil.mp h0) (by omega)
      have hl : Lists s.heap.mem (s.heap.caches d) (fun q => (d, q) ∈ s.slabs)
          (fun q => fl' q = []) :=
        (hi.lists d hd).iff (fun _ => Iff.rfl) fun q hq => by rw [hfl d q hq]
      refine (hl.add hnone (hnew d) hpos hnext).iff (fun q => ?_) fun _ _ => Iff.rfl
      rw [List.mem_cons, Prod.mk.injEq]
      exact ⟨fun h => h.elim (fun h => Or.inr h.2) Or.inl,
        fun h => h.elim Or.inr fun h => Or.inl ⟨rfl, h⟩⟩
    · rw [hne d he]
      refine (hi.lists d hd).iff (fun q => ?_) fun q hq => by rw [hfl d q hq]
      rw [List.mem_cons]
      exact ⟨fun h => h.resolve_left fun h => he (Prod.mk.inj h).1, Or.inr⟩
  · rw [hi.live d o]
    refine exists_congr fun q => exists_congr fun i => ?_
    rw [(hsame d).2.max, (hsame d).2.addr, List.mem_cons]
    refine ⟨fun h => ⟨Or.inr h.1, h.2.1, by rw [hfl d q h.1]; exact h.2.2.1, h.2.2.2⟩, fun h => ?_⟩
    rcases h.1 with he | hq
    · -- every object of the new slab is free
      obtain ⟨rfl, rfl⟩ := Prod.mk.inj he
      rw [hflp] at h
      exact absurd (List.mem_range.mpr h.2.1) h.2.2.1
    · exact ⟨hq, h.2.1, by rw [← hfl d q hq]; exact h.2.2.1, h.2.2.2⟩

/-- The heap with block `p` as the one partial slab of cache `c`, as `slab_new` sets it up. -/
def Heap.withSlab (t : Heap) (c p : Nat) (b : Buddy) : Heap :=
  Heap.setCache { t with
      buddy := b
      mem := newMem t.mem (pageAddress p) (slabMaxObjectNum (t.caches c)) } c
    fun x => { x with slabsPartial := some (pageAddress p) }

theorem Heap.withSlab_self (t : Heap) (c p : Nat) (b : Buddy) : (withSlab t c p b).caches c
    = { t.caches c with slabsPartial := some (pageAddress p) } := Heap.setCache_self ..

/-- A cache without partial slabs gets a new one, all of whose objects are free. -/
theorem Inv.newSlab (hi : Inv s fl fc cp) (hc : c ∈ s.created)
    (hnone : (s.heap.caches c).slabsPartial = none)
    (h : buddyAlloc s.heap.buddy (s.heap.caches c).slabSize = .ok (p, b)) :
    Inv { s with heap := Heap.withSlab s.heap c p b, slabs := (c, p) :: s.slabs }
      (Function.update fl p (List.range (slabMaxObjectNum (s.heap.caches c)))) fc cp := by
  obtain ⟨hb, hfresh, hfirst, hsz⟩ := hi.take_block h
  obtain ⟨ord, free, w⟩ : ∃ ord free, Buddy.Wf b ord free none := hb.pool
  have hin := head_inside w hfirst
  have hlay := (hi.sizes c hc).layout
  have hentry : freeEntry (pageAddress p) (slabMaxObjectNum (s.heap.caches c) + 1) < 2 ^ 32 := by
    unfold freeEntry slabHeaderBytes pageAddress pageStart pageSize pageNum at *
    omega
  -- the new slab meets none of the others
  have hm := hb.mem (m := newMem s.heap.mem (pageAddress p) (slabMaxObjectNum (s.heap.caches c)))
    fun d q hq => newMem_agree (by
      have hne : p ≠ q := fun he => hfresh (mem_pages_slab (by rw [he]; exact hq))
      have hap := heads_apart w hfirst (hb.allocated q (mem_pages_slab hq)) hne
      have h1 : (s.heap.caches d).slabSize ≤ 2 ^ (b.pages q).order * pageSize := (hb.slab d q hq).2.1
      have h2 := (hi.sizes d (hi.slab d q hq).1).layout
      unfold Apart pageAddress pageSize at *
      simp only
      omega)
  exact hm.addSlab hc hnone hfresh hfirst hsz (newMem_ok _ hentry) (newMem_next _ _ _)

theorem slabCacheAlloc_some (hpart : (t.caches c).slabsPartial = some h) :
    slabCacheAlloc t c = .ok (slabTake t c h) := by
  unfold slabCacheAlloc
  rw [hpart]
  rfl

theorem slabCacheAlloc_none (hpart : (t.caches c).slabsPartial = none) :
    slabCacheAlloc t c = buddyAlloc t.buddy (t.caches c).slabSize >>= fun r =>
      .ok (slabTake (Heap.withSlab t c r.1 r.2) c (pageAddress r.1)) := by
  unfold slabCacheAlloc slabNew
  rw [hpart]
  cases buddyAlloc t.buddy (t.caches c).slabSize <;> rfl

/-- **The ways `slab_cache_alloc` can go**: the slab is there, or a new one is set up. -/
theorem slabCacheAlloc_cases {t' : Heap} (h : slabCacheAlloc t c = .ok (obj, t')) :
    (∃ a, (t.caches c).slabsPartial = some a ∧ slabTake t c a = (obj, t'))
      ∨ (t.caches c).slabsPartial = none
        ∧ ∃ p b, buddyAlloc t.buddy (t.caches c).slabSize = .ok (p, b)
          ∧ slabTake (Heap.withSlab t c p b) c (pageAddress p) = (obj, t') := by
  cases hpart : (t.caches c).slabsPartial with
  | some a =>
    rw [slabCacheAlloc_some hpart] at h
    exact .inl ⟨a, rfl, Except.ok.inj h⟩
  | none =>
    rw [slabCacheAlloc_none hpart] at h
    obtain ⟨⟨p, b⟩, ha, h⟩ := bind_eq_ok h
    exact .inr ⟨rfl, p, b, ha, Except.ok.inj h⟩

theorem Inv.alloc (hi : Inv s fl fc cp) (hc : c ∈ s.created)
    (h : slabCacheAlloc s.heap c = .ok (obj, t)) :
    ∃ fl', Inv { s with heap := t, slabs := s.newSlab c ++ s.slabs, live := (c, obj) :: s.live }
      fl' fc cp := by
  unfold World.newSlab
  rcases slabCacheAlloc_cases h with ⟨a, hpart, htake⟩ | ⟨hpart, p, b, ha, htake⟩
  · have hi' := hi.take hc hpart
    rw [htake] at hi'
    rw [hpart]
    exact hi'
  · have hi' := (hi.newSlab hc hpart ha).take hc
      (congrArg SlabCache.slabsPartial (Heap.withSlab_self ..))
    rw [htake] at hi'
    rw [hpart, ha]
    exact hi'

/-- The page of a live object leads to its slab, and its offset to its index. -/
theorem Inv.find (hi : Inv s fl fc cp) (hp : (c, p) ∈ s.slabs)
    (hlt : i < slabMaxObjectNum (s.heap.caches c)) :
    (pageFindByAddress (objectAddr (s.heap.caches c) (pageAddress p) i)).bind
        (pageFindHead s.heap.buddy) = some p
      ∧ (ptrDiff (objectAddr (s.heap.caches c) (pageAddress p) i)
          (s.heap.mem.load 4 (pageAddress p + 8)) % 2 ^ 32).toNat
          / (s.heap.caches c).objectSize = i := by
  obtain ⟨ord, free, w⟩ := hi.pool
  have hfirst := hi.allocated p (mem_pages_slab hp)
  have hok := hi.sizes c (hi.slab c p hp).1
  obtain ⟨_, hsz, hslab⟩ := hi.slab c p hp
  have hobj := hok.object
  have hin := hok.inside (h := pageAddress p) hlt
  have hend := head_inside w hfirst
  have hlow : pageAddress p ≤ objectAddr (s.heap.caches c) (pageAddress p) i := by
    have := hin.1
    unfold freeEntry at this
    omega
  refine ⟨?_, ?_⟩
  · generalize objectAddr (s.heap.caches c) (pageAddress p) i = a at *
    obtain ⟨j, hj⟩ : ∃ j, j = (a - pageStart) / pageSize := ⟨_, rfl⟩
    unfold pageAddress at hin hlow
    have h1 : pageAddress j ≤ a ∧ a < pageAddress j + pageSize := by
      unfold pageAddress pageSize at *
      omega
    have h2 : p ≤ j ∧ j < p + 2 ^ (s.heap.buddy.pages p).order := by
      unfold pageSize at *
      omega
    rw [pageFindByAddress_eq h1.1 h1.2 (by omega)]
    exact pageFindHead_eq w hfirst h2.1 h2.2
  · have hlay := hok.layout
    have hsize := hok.size
    have hmul : (s.heap.caches c).objectSize * i
        ≤ (s.heap.caches c).objectSize * slabMaxObjectNum (s.heap.caches c) :=
      Nat.mul_le_mul_left _ (Nat.le_of_lt hlt)
    rw [hslab.object]
    unfold objectAddr
    rw [ptrDiff_eq (Nat.le_add_right ..) (by omega), Nat.add_sub_cancel_left,
      Int.emod_eq_of_lt (Int.natCast_nonneg _) (by omega), Int.toNat_natCast,
      Nat.mul_div_cancel_left _ hobj]

/--
**Freeing a live object never halts, and keeps the invariant.** Only headers and free
arrays of slabs are written to.
-/
theorem Inv.free (hi : Inv s fl fc cp) (hl : (c, obj) ∈ s.live) :
    ∃ t fl', slabCacheFree s.heap c obj = .ok t
      ∧ Inv { s with heap := t, live := s.live.erase (c, obj) } fl' fc cp
      ∧ t.buddy = s.heap.buddy
      ∧ ∀ a k, (∀ d q, (d, q) ∈ s.slabs → Apart (pageAddress q) (s.heap.caches d).slabSize a k) →
          Agree s.heap.mem t.mem a k := by
  obtain ⟨p, i, hp, hlt, hifl, rfl⟩ := (hi.live c obj).mp hl
  obtain ⟨hfind, hindex⟩ := hi.find hp hlt
  obtain ⟨hc, _, hok⟩ := hi.slab c p hp
  obtain ⟨y, hy, hput, hend⟩ := hok.put (hi.entry_lt hp) (hi.sizes c hc).num_lt hlt hifl
  have hag : ∀ a k, Apart (pageAddress p + 4)
      (8 + 4 * (slabMaxObjectNum (s.heap.caches c) + 1)) a k →
      Agree s.heap.mem (putMem s.heap.mem (pageAddress p) i y) a k :=
    fun a k ha => putMem_agree (Nat.le_of_lt hlt) ha
  unfold slabCacheFree
  rw [hfind]
  simp only [hindex, hy]
  rw [show (s.heap.mem.store 4 (freeEntry (pageAddress p) i) y).store 4 (pageAddress p + 4)
    (freeEntry (pageAddress p) i) = putMem s.heap.mem (pageAddress p) i y from rfl]
  generalize putMem s.heap.mem (pageAddress p) i y = m at *
  have hfl : ∀ q, q ≠ p → Function.update fl p (i :: fl p) q = fl q :=
    fun q hq => Function.update_of_ne hq _ _
  have hflp : Function.update fl p (i :: fl p) p = i :: fl p := Function.update_self ..
  have hmeta := fun d q (hq : (d, q) ∈ s.slabs) => (hi.meta_kept hp hag hq).1
  have hnext := fun d q (hq : (d, q) ∈ s.slabs) => (hi.meta_kept hp hag hq).2
  have hlm : Lists m (s.heap.caches c) (fun q => (c, q) ∈ s.slabs) (fun q => fl q = []) :=
    (hi.lists c hc).congr fun q hq => hnext c q hq
  have hlive : ∀ d o, (d, o) ∈ s.live.erase
        (c, objectAddr (s.heap.caches c) (pageAddress p) i) ↔
      ∃ q j, (d, q) ∈ s.slabs ∧ j < slabMaxObjectNum (s.heap.caches d)
        ∧ j ∉ Function.update fl p (i :: fl p) q
        ∧ o = objectAddr (s.heap.caches d) (pageAddress q) j := by
    intro d o
    have hiff := hi.objects_cons hp hlt hifl d o
    rw [Function.update_eq_self] at hiff
    rw [hi.liveNodup.mem_erase_iff, hi.live d o, hiff]
    refine ⟨fun h => h.2.resolve_left h.1, fun h => ⟨fun heq => ?_, .inr h⟩⟩
    obtain ⟨q, j, hq, hj, hnot, rfl⟩ := h
    obtain ⟨rfl, ho⟩ := Prod.mk.inj heq
    obtain ⟨rfl, rfl⟩ := hi.object_inj hq hp hj hlt ho
    rw [hflp] at hnot
    exact hnot (List.mem_cons_self ..)
  have hnd := hi.liveNodup.erase (c, objectAddr (s.heap.caches c) (pageAddress p) i)
  have hltp : ∀ q, (c, q) ∈ s.slabs → q < pageNum := fun q hq => (hi.slab_inside hq).1
  have hlay := (hi.sizes c hc).layout
  have hword : ∀ a k, (∀ d q, (d, q) ∈ s.slabs → Apart (pageAddress q) (s.heap.caches d).slabSize a k) →
      ∀ q, (c, q) ∈ s.slabs → Apart (pageAddress q) 4 a k := by
    intro a k ha q hq
    have := ha c q hq
    unfold Apart at *
    omega
  have hagree : ∀ a k, (∀ d q, (d, q) ∈ s.slabs →
      Apart (pageAddress q) (s.heap.caches d).slabSize a k) → Agree s.heap.mem m a k := by
    intro a k ha
    have := ha c p hp
    refine hag a k ?_
    unfold Apart at *
    omega
  by_cases hr : fl p = []
  · rw [if_pos (hend.mpr hr)]
    obtain ⟨prev, hprev, hprev', hmove⟩ :=
      Lists.toPartial (s := { s.heap with mem := m }) (c := c) hlm hltp hp hr
    obtain ⟨hfb, hfh, hfd, ⟨f, g, hfc⟩, hfm⟩ :=
      slabToPartial_frame { s.heap with mem := m } c (pageAddress p) prev
    rw [hprev]
    refine ⟨_, Function.update fl p (i :: fl p), rfl, ?_⟩
    generalize slabToPartial { s.heap with mem := m } c (pageAddress p) prev = t at *
    -- the links written are first words of slabs of this cache
    have hfirst : ∀ d q k, (d, q) ∈ s.slabs →
        k ≤ 8 + 4 * (slabMaxObjectNum (s.heap.caches d) + 1) → Agree m t.mem (pageAddress q + 4) k := by
      intro d q k hq hk
      have happ : ∀ e r, (e, r) ∈ s.slabs → Apart (pageAddress r) 4 (pageAddress q + 4) k := by
        intro e r hr
        by_cases he : q = r
        · rw [he]; unfold Apart; omega
        · have := hi.meta_apart hr hq he
          unfold Apart at *
          omega
      refine hfm _ _ (happ c p hp) fun a ha => ?_
      obtain ⟨r, hr, rfl⟩ := hprev' a ha
      exact happ c r hr
    refine ⟨hi.relist hp hfb hfh hfd hfc hfl ?_ ?_ ?_ ?_ hlive hnd, hfb, fun a k ha =>
      (hagree a k ha).trans (hfm a k (hword a k ha p hp) fun b hb => ?_)⟩
    · rw [hflp]
      exact hput.congr (hfirst c p _ hp (Nat.le_refl _))
    · intro d q hq hne
      exact ((hmeta d q hq hne).sub (by omega) (by omega)).trans (hfirst d q _ hq (Nat.le_refl _))
    · intro d q hq hd
      rw [← hnext d q hq]
      have happ : ∀ r, (c, r) ∈ s.slabs → Apart (pageAddress r) 4 (pageAddress q) 4 := by
        intro r hr
        have hne : q ≠ r := fun he => hd (hi.slab_cache hq (by rw [he]; exact hr))
        have := hi.meta_apart hr hq hne
        unfold Apart at *
        omega
      unfold slabNext
      rw [load_congr (hfm (pageAddress q) 4 (happ p hp) fun a ha => ?_)]
      obtain ⟨r, hr, rfl⟩ := hprev' a ha
      exact happ r hr
    · refine hmove.iff (fun _ => Iff.rfl) fun q hq => ?_
      by_cases he : q = p
      · rw [he]
        exact ⟨fun h => absurd h (by simp), fun h => absurd rfl h.2⟩
      · rw [hfl q he]
        exact ⟨fun h => ⟨h, he⟩, fun h => h.1⟩
    · obtain ⟨r, hr, rfl⟩ := hprev' b hb
      exact hword a k ha r hr
  · rw [if_neg fun he => hr (hend.mp he)]
    refine ⟨_, Function.update fl p (i :: fl p), rfl, ?_, rfl, hagree⟩
    refine hi.relist hp rfl rfl (fun d _ => rfl) rfl hfl ?_ ?_ (fun d q hq _ => hnext d q hq) ?_
      hlive hnd
    · rw [hflp]; exact hput
    · intro d q hq hne
      exact (hmeta d q hq hne).sub (by omega) (by omega)
    · refine hlm.iff (fun _ => Iff.rfl) fun q hq => ?_
      by_cases he : q = p
      · rw [he]
        exact ⟨fun h => absurd h (by simp), fun h => absurd h hr⟩
      · rw [hfl q he]

/-! ## Runs -/

/-- The start: `page_init` has run and nothing is handed out. -/
def start (m : Bytes) (caches : Nat → SlabCache) : World :=
  ⟨⟨buddyInit, m, caches, none⟩, [], [], [], []⟩

theorem inv_start (m : Bytes) (caches : Nat → SlabCache) (fl : Nat → List Nat) :
    Inv (start m caches) fl [] [] := by
  refine ⟨⟨_, _, Buddy.buddyInit_wf⟩, List.nodup_nil, ?_, rfl, ⟨List.nodup_nil, ?_⟩, ?_, ?_, ?_, ?_,
    ?_, List.nodup_nil⟩
  all_goals simp [start, World.pages]

/-- **One step keeps the invariant.** -/
theorem inv_step {s' : World} {a : Act} (hi : Inv s fl fc cp) (h : Step s a s') :
    ∃ fl' fc' cp', Inv s' fl' fc' cp' := by
  cases h with
  | create h1 h2 hr =>
    obtain ⟨fc', cp', hi'⟩ := hi.create h1 h2 hr
    exact ⟨fl, fc', cp', hi'⟩
  | alloc hc hr =>
    obtain ⟨fl', hi'⟩ := hi.alloc hc hr
    exact ⟨fl', fc, cp, hi'⟩
  | free hl hr =>
    obtain ⟨t, fl', ht, hi', _⟩ := hi.free hl
    rw [hr] at ht
    injection ht with ht
    subst ht
    exact ⟨fl', fc, cp, hi'⟩
  | write hl hm => exact ⟨fl, fc, cp, hi.write hl hm⟩
  | pageAlloc hr => exact ⟨fl, fc, cp, hi.pageAlloc hr⟩
  | pageFree hp hr => exact ⟨fl, fc, cp, hi.pageFree hp hr⟩
  | pageWrite hp hm => exact ⟨fl, fc, cp, hi.pageWrite hp hm⟩

/-- Two live objects do not meet. -/
theorem Inv.live_apart (hi : Inv s fl fc cp) {x y : Nat × Nat} (hx : x ∈ s.live) (hy : y ∈ s.live)
    (hne : x ≠ y) :
    Apart x.2 (s.heap.caches x.1).objectSize y.2 (s.heap.caches y.1).objectSize := by
  obtain ⟨p, i, hp, hlt, _, hxo⟩ := (hi.live x.1 x.2).mp hx
  obtain ⟨q, j, hq, hlt', _, hyo⟩ := (hi.live y.1 y.2).mp hy
  rw [hxo, hyo]
  by_cases he : p = q
  · subst he
    have hc := hi.slab_cache hp hq
    rw [← hc]
    refine objectAddr_apart fun hij => hne (Prod.ext hc ?_)
    rw [hxo, hyo, hij, hc]
  · have hap := hi.slab_apart hp hq he
    have h1 := (hi.sizes _ (hi.slab _ p hp).1).inside (h := pageAddress p) hlt
    have h2 := (hi.sizes _ (hi.slab _ q hq).1).inside (h := pageAddress q) hlt'
    unfold Apart at *
    unfold freeEntry at h1 h2
    omega

/-- Both lists of a cache as the walk reads them. -/
theorem Inv.listed (hi : Inv s fl fc cp) (hc : c ∈ s.created) :
    ∃ lf lp : List Nat, Slab.listed s (s.heap.caches c).slabsFull = lf.map pageAddress
      ∧ Slab.listed s (s.heap.caches c).slabsPartial = lp.map pageAddress
      ∧ Chain (slabNext s.heap.mem) (s.heap.caches c).slabsFull (lf.map pageAddress)
      ∧ Chain (slabNext s.heap.mem) (s.heap.caches c).slabsPartial (lp.map pageAddress)
      ∧ (lf ++ lp).Nodup ∧ (∀ p, p ∈ lf ↔ (c, p) ∈ s.slabs ∧ fl p = [])
      ∧ ∀ p, p ∈ lp ↔ (c, p) ∈ s.slabs ∧ ¬ fl p = [] := by
  obtain ⟨lf, lp, hcf, hcp, hnd, hf, hp⟩ := hi.lists c hc
  obtain ⟨hnd1, hnd2, _⟩ := List.nodup_append.mp hnd
  refine ⟨lf, lp, hcf.walk_eq ?_, hcp.walk_eq ?_, hcf, hcp, hnd, hf, hp⟩
  · rw [List.length_map]
    exact length_le_pageNum hnd1 fun q hq => (hi.slab_inside ((hf q).mp hq).1).1
  · rw [List.length_map]
    exact length_le_pageNum hnd2 fun q hq => (hi.slab_inside ((hp q).mp hq).1).1

theorem setCache_sizes (u : Heap) (c d : Nat) {f : SlabCache → SlabCache}
    (hf : ∀ x, SameSizes x (f x)) : SameSizes (u.caches d) ((u.setCache c f).caches d) := by
  by_cases he : d = c
  · rw [he, Heap.setCache_self]
    exact hf _
  · rw [Heap.setCache_ne _ _ he]
    exact ⟨rfl, rfl⟩

theorem slabTake_sizes (u : Heap) (c a d : Nat) :
    SameSizes (u.caches d) ((slabTake u c a).2.caches d) := by
  unfold slabTake
  dsimp only
  split
  · exact setCache_sizes _ c d fun _ => ⟨rfl, rfl⟩
  · exact ⟨rfl, rfl⟩

theorem slabCacheAlloc_sizes {t' : Heap}
    (h : slabCacheAlloc t c = .ok (obj, t')) (d : Nat) : SameSizes (t.caches d) (t'.caches d) := by
  rcases slabCacheAlloc_cases h with ⟨a, _, htake⟩ | ⟨_, p, b, _, htake⟩
  · have ht := slabTake_sizes t c a d
    rw [htake] at ht
    exact ht
  · have ht := slabTake_sizes (Heap.withSlab t c p b) c (pageAddress p) d
    rw [htake] at ht
    have hset : SameSizes (t.caches d) ((Heap.withSlab t c p b).caches d) :=
      setCache_sizes { t with
        buddy := b
        mem := newMem t.mem (pageAddress p) (slabMaxObjectNum (t.caches c)) } c d fun _ => ⟨rfl, rfl⟩
    exact ⟨ht.1.trans hset.1, ht.2.trans hset.2⟩

theorem Inv.sound (hi : Inv s fl fc cp) : s.Sound := by
  refine ⟨?_, ⟨?_, fun c p hp => ?_⟩, fun c o hl => ?_, fun c hc => ?_, fun c p hp => ?_,
    fun c obj t hc h x hx => ?_, fun c o hl => ?_⟩
  · exact hi.liveNodup.imp_of_mem fun hx hy hne => hi.live_apart hx hy hne
  · exact (List.nodup_append.mp (List.nodup_append.mp hi.nodup).1).2.1
  · exact ⟨hi.allocated p (mem_pages_slab hp), (hi.slab c p hp).2.1⟩
  · obtain ⟨p, i, hp, hlt, _, rfl⟩ := (hi.live c o).mp hl
    exact ⟨p, hp, (hi.sizes c (hi.slab c p hp).1).inside hlt⟩
  · obtain ⟨lf, lp, h1, h2, hcf, hcp, hnd, hf, hp⟩ := hi.listed hc
    rw [h1, h2]
    refine ⟨hcf, hcp, ?_, fun a => ?_⟩
    · rw [← List.map_append]
      exact hnd.map fun _ _ h => pageAddress_inj h
    · rw [← List.map_append, List.mem_map]
      refine exists_congr fun p => ?_
      rw [List.mem_append, hf, hp]
      refine ⟨fun h => ⟨h.1.elim And.left And.left, h.2.symm⟩, fun h => ⟨?_, h.2.symm⟩⟩
      by_cases he : fl p = []
      · exact Or.inl ⟨h.1, he⟩
      · exact Or.inr ⟨h.1, he⟩
  · have hc := (hi.slab c p hp).1
    obtain ⟨lf, lp, h1, h2, _, _, _, hf, _⟩ := hi.listed hc
    have hmem : pageAddress p ∈ lf.map pageAddress ↔ fl p = [] := by
      rw [List.mem_map]
      refine ⟨fun h => ?_, fun h => ⟨p, (hf p).mpr ⟨hp, h⟩, rfl⟩⟩
      obtain ⟨q, hq, he⟩ := h
      rw [pageAddress_inj he] at hq
      exact ((hf p).mp hq).2
    rw [h1, hmem]
    refine ⟨fun he i hlt => ?_, fun hall => ?_⟩
    · exact (hi.live c _).mpr ⟨p, i, hp, hlt, by rw [he]; exact List.not_mem_nil, rfl⟩
    · refine List.eq_nil_iff_forall_not_mem.mpr fun i hifl => ?_
      have hlt := (hi.slab c p hp).2.2.lt i hifl
      obtain ⟨q, j, hq, hj, hnot, he⟩ := (hi.live c _).mp (hall i hlt)
      obtain ⟨rfl, rfl⟩ := hi.object_inj hp hq hlt hj he
      exact hnot hifl
  · obtain ⟨fl', hi'⟩ := hi.alloc hc h
    have hne : (c, obj) ≠ x := fun he =>
      (List.nodup_cons.mp hi'.liveNodup).1 (by rw [he]; exact hx)
    have hap := hi'.live_apart (List.mem_cons_self ..) (List.mem_cons_of_mem _ hx) hne
    simp only [(slabCacheAlloc_sizes h _).1] at hap
    exact hap
  · obtain ⟨t, _, ht, _⟩ := hi.free hl
    exact ⟨t, ht⟩

/-- **Every run keeps the invariant.** -/
theorem inv_run {m : Bytes} {caches : Nat → SlabCache} {as : List Act}
    (hr : Run Step (start m caches) as s) : ∃ fl fc cp, Inv s fl fc cp := by
  apply Run.invariant hr
  · exact ⟨fun _ => [], [], [], inv_start m caches _⟩
  · intro s a s' hi h
    obtain ⟨fl, fc, cp, hi⟩ := hi
    exact inv_step hi h

/-- **The slab allocator is sound after every run.** -/
theorem slab_run_sound {m : Bytes} {caches : Nat → SlabCache} {as : List Act} {s : World}
    (hr : Run Step (start m caches) as s) : s.Sound := by
  obtain ⟨fl, fc, cp, hi⟩ := inv_run hr
  exact hi.sound

/-- A cache for 5-byte objects, one object taken from it and given back. -/
theorem slab_run_sound_alloc_free : ∃ s c obj,
    Run Step (start (fun _ => 0) fun _ => {}) [.create [99] 5, .alloc c, .free c obj] s
      ∧ s.live = [] ∧ s.Sound := by
  have hcreate : ∃ c t, slabCacheCreate (start (fun _ => 0) fun _ => {}).heap [99] 5
      = .ok (some c, t) ∧ (slabCacheAlloc t c).isOk = true := by
    refine ⟨_, _, rfl, ?_⟩
    decide
  obtain ⟨c, t, hc, hok⟩ := hcreate
  cases ha : slabCacheAlloc t c with
  | error e => rw [ha] at hok; exact absurd hok (by simp [Except.isOk, Except.toBool])
  | ok r =>
    have h1 := Run.nil.snoc (Step.create (by decide) (by decide) hc)
    have h2 := h1.snoc (Step.alloc (List.mem_singleton.mpr rfl) ha)
    obtain ⟨u, hu⟩ := (slab_run_sound h2).unbroken c r.1 (List.mem_singleton.mpr rfl)
    have h3 := h2.snoc (Step.free (List.mem_singleton.mpr rfl) hu)
    exact ⟨_, c, r.1, h3, by simp [start], slab_run_sound h3⟩

end Cyanurus.Slab
