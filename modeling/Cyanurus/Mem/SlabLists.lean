import Mathlib.Data.List.Perm.Subperm
import Cyanurus.Mem.SlabProof

/-!
# The two lists of a cache

Every slab of a cache is on `slabs_full` or on `slabs_partial`, linked through the
first word of its header. `Lists` states this for the pages the slabs start at:
`mine` are the slabs of the cache, `full` those among them without a free object.

Besides the frame lemma there are three moves: a new slab becomes the only partial
one, the first partial slab becomes full, and any full slab becomes partial.
-/

namespace Cyanurus.Slab

open Bytes

variable {m m' : Bytes} {cache : SlabCache} {mine full : Nat → Prop} {p : Nat}

/-- The slabs `mine` of the cache are listed, each once, on the list that `full` says. -/
def Lists (m : Bytes) (cache : SlabCache) (mine full : Nat → Prop) : Prop :=
  ∃ lf lp : List Nat,
    Chain (slabNext m) cache.slabsFull (lf.map pageAddress)
      ∧ Chain (slabNext m) cache.slabsPartial (lp.map pageAddress)
      ∧ (lf ++ lp).Nodup
      ∧ (∀ p, p ∈ lf ↔ mine p ∧ full p) ∧ ∀ p, p ∈ lp ↔ mine p ∧ ¬ full p

theorem pageAddress_inj {p q : Nat} (h : pageAddress p = pageAddress q) : p = q := by
  unfold pageAddress pageSize at h; omega

theorem slabNext_store_ne (m : Bytes) {p q : Nat} (v : Nat) (h : p ≠ q) :
    slabNext (m.store 4 (pageAddress q) v) (pageAddress p) = slabNext m (pageAddress p) := by
  unfold slabNext
  rw [load_store_apart]
  unfold Apart pageAddress pageSize
  omega

/-- A write to the link of a slab leaves those of a list it is not on. -/
theorem slabNext_store_map (m : Bytes) (v : Nat) {l : List Nat} (hp : p ∉ l) :
    ∀ x ∈ l.map pageAddress, slabNext (m.store 4 (pageAddress p) v) x = slabNext m x := by
  intro x hx
  obtain ⟨q, hq, rfl⟩ := List.mem_map.mp hx
  exact slabNext_store_ne m v fun he => hp (he ▸ hq)

theorem slabNext_store_load (m : Bytes) (a b : Nat) :
    slabNext (m.store 4 a (m.load 4 b)) a = slabNext m b := by
  unfold slabNext
  rw [load_store_self, Nat.mod_eq_of_lt (load_lt m 4 b)]

/-- A link to a slab is read back as it was written. -/
theorem slabNext_store_self (m : Bytes) (a : Nat) {o : Option Nat}
    (ho : ∀ x, o = some x → ∃ p, p < pageNum ∧ x = pageAddress p) :
    slabNext (m.store 4 a (ptrWord o)) a = o := by
  unfold slabNext wordPtr ptrWord
  rw [load_store_self]
  cases o with
  | none => rfl
  | some x =>
    obtain ⟨p, hp, rfl⟩ := ho x rfl
    unfold pageNum at hp
    have h1 : pageAddress p % 256 ^ 4 = pageAddress p := by
      unfold pageAddress pageStart pageSize; omega
    have h2 : pageAddress p ≠ 0 := by unfold pageAddress pageStart; omega
    simp only [Option.getD_some]
    rw [h1, if_neg h2]

/-- The head of a list of slabs. -/
theorem chain_head {next : Nat → Option Nat} {o : Option Nat} {l : List Nat}
    (hc : Chain next o (l.map pageAddress)) (hl : ∀ p ∈ l, p < pageNum) :
    ∀ x, o = some x → ∃ p, p < pageNum ∧ x = pageAddress p := by
  intro x hx
  rw [hx] at hc
  cases l with
  | nil => cases hc
  | cons p l => exact ⟨p, hl p (List.mem_cons_self ..), Option.some.inj hc.1⟩

/-- Only the links of the cache's own slabs count. -/
theorem Lists.congr (hl : Lists m cache mine full)
    (hn : ∀ p, mine p → slabNext m' (pageAddress p) = slabNext m (pageAddress p)) :
    Lists m' cache mine full := by
  obtain ⟨lf, lp, hcf, hcp, hnd, hf, hp⟩ := hl
  refine ⟨lf, lp, hcf.congr ?_, hcp.congr ?_, hnd, hf, hp⟩
  · intro x hx
    obtain ⟨q, hq, rfl⟩ := List.mem_map.mp hx
    exact hn q ((hf q).mp hq).1
  · intro x hx
    obtain ⟨q, hq, rfl⟩ := List.mem_map.mp hx
    exact hn q ((hp q).mp hq).1

theorem Lists.iff {mine' full' : Nat → Prop} (hl : Lists m cache mine full)
    (hm : ∀ p, mine' p ↔ mine p) (hf : ∀ p, mine p → (full' p ↔ full p)) :
    Lists m cache mine' full' := by
  obtain ⟨lf, lp, hcf, hcp, hnd, h1, h2⟩ := hl
  refine ⟨lf, lp, hcf, hcp, hnd, fun p => ?_, fun p => ?_⟩
  · rw [h1, hm]
    exact and_congr_right fun h => (hf p h).symm
  · rw [h2, hm]
    exact and_congr_right fun h => not_congr (hf p h).symm

/-- A cache without partial slabs gets a new one. -/
theorem Lists.add (hl : Lists m cache mine full) (hnone : cache.slabsPartial = none)
    (hnew : ¬ mine p) (hfull : ¬ full p) (hnext : slabNext m (pageAddress p) = none) :
    Lists m { cache with slabsPartial := some (pageAddress p) } (fun q => mine q ∨ q = p) full := by
  obtain ⟨lf, lp, hcf, hcp, hnd, hf, hp⟩ := hl
  rw [hnone] at hcp
  obtain rfl : lp = [] := List.map_eq_nil_iff.mp hcp.head_none
  refine ⟨lf, [p], hcf, ⟨rfl, hnext⟩, ?_, fun q => ?_, fun q => ?_⟩
  · have hpf : p ∉ lf := fun h => hnew ((hf p).mp h).1
    rw [List.append_nil] at hnd
    exact List.nodup_append.mpr ⟨hnd, List.nodup_singleton p, fun a ha b hb => by
      rw [List.mem_singleton.mp hb]
      exact fun he => hpf (by rw [← he]; exact ha)⟩
  · rw [hf q]
    by_cases he : q = p <;> simp [he, hfull]
  · have hq := hp q
    rw [List.mem_singleton]
    by_cases he : q = p
    · simp [he, hfull]
    · simpa [he] using hq

/-- **The first partial slab becomes the first full one.** -/
theorem Lists.toFull (hl : Lists m cache mine full) (hlt : ∀ q, mine q → q < pageNum)
    (hpart : cache.slabsPartial = some (pageAddress p)) :
    Lists (m.store 4 (pageAddress p) (ptrWord cache.slabsFull))
      { cache with slabsPartial := slabNext m (pageAddress p),
                   slabsFull := some (pageAddress p) }
      mine (fun q => full q ∨ q = p) := by
  obtain ⟨lf, lp, hcf, hcp, hnd, hf, hp⟩ := hl
  rw [hpart] at hcp
  cases lp with
  | nil => cases hcp
  | cons p' lp =>
    obtain rfl : p = p' := pageAddress_inj (Option.some.inj hcp.1)
    have hp' := (hp p).mp (List.mem_cons_self ..)
    have hnd' : (p :: (lf ++ lp)).Nodup := List.nodup_middle.mp hnd
    obtain ⟨hnot, hrest⟩ := List.nodup_cons.mp hnd'
    have hself := slabNext_store_self m (pageAddress p)
      (chain_head hcf fun q hq => hlt q ((hf q).mp hq).1)
    refine ⟨p :: lf, lp, ⟨rfl, ?_⟩, ?_, hnd', fun q => ?_, fun q => ?_⟩
    · rw [hself]
      exact hcf.congr (slabNext_store_map m _ fun h => hnot (List.mem_append_left _ h))
    · exact hcp.2.congr (slabNext_store_map m _ fun h => hnot (List.mem_append_right _ h))
    · rw [List.mem_cons, hf q]
      by_cases he : q = p <;> simp [he, hp'.1]
    · have hq := hp q
      rw [List.mem_cons] at hq
      by_cases he : q = p
      · subst he
        simpa using fun h => hnot (List.mem_append_right _ h)
      · simpa [he] using hq

/-! ## Back to the partial list -/

theorem length_le_pageNum {l : List Nat} (hnd : l.Nodup) (hlt : ∀ p ∈ l, p < pageNum) :
    l.length ≤ pageNum := by
  have hsub : l ⊆ List.range pageNum := fun p hp => List.mem_range.mpr (hlt p hp)
  simpa using (hnd.subperm hsub).length_le

theorem slabToPartial_none (s : Heap) (c h : Nat) :
    (slabToPartial s c h none).mem = s.mem.store 4 h (ptrWord (s.caches c).slabsPartial)
      ∧ (slabToPartial s c h none).caches c
        = { s.caches c with slabsFull := slabNext s.mem h, slabsPartial := some h } := by
  unfold slabToPartial
  simp [Heap.setCache]

theorem slabToPartial_some (s : Heap) (c h q : Nat) :
    (slabToPartial s c h (some q)).mem
        = (s.mem.store 4 q (s.mem.load 4 h)).store 4 h (ptrWord (s.caches c).slabsPartial)
      ∧ (slabToPartial s c h (some q)).caches c
        = { s.caches c with slabsPartial := some h } := by
  unfold slabToPartial
  simp [Heap.setCache]

/-- What `slab_cache_free` writes when it moves a slab: two links and two heads. -/
theorem slabToPartial_frame (s : Heap) (c h : Nat) (prev : Option Nat) :
    (slabToPartial s c h prev).buddy = s.buddy
      ∧ (slabToPartial s c h prev).freeCacheHead = s.freeCacheHead
      ∧ (∀ d, d ≠ c → (slabToPartial s c h prev).caches d = s.caches d)
      ∧ (∃ f g, (slabToPartial s c h prev).caches c
          = { s.caches c with slabsFull := f, slabsPartial := g })
      ∧ ∀ a k, Apart h 4 a k → (∀ q, prev = some q → Apart q 4 a k) →
          Agree s.mem (slabToPartial s c h prev).mem a k := by
  cases prev with
  | none =>
    refine ⟨rfl, rfl, fun d hd => ?_, ⟨_, _, (slabToPartial_none s c h).2⟩, fun a k ha _ => ?_⟩
    · unfold slabToPartial
      simp [Heap.setCache, hd]
    · exact store_agree _ _ ha
  | some q =>
    refine ⟨rfl, rfl, fun d hd => ?_, ⟨_, _, (slabToPartial_some s c h q).2⟩, fun a k ha hq => ?_⟩
    · unfold slabToPartial
      simp [Heap.setCache, hd]
    · exact (store_agree _ _ (hq q rfl)).trans (store_agree _ _ ha)

/-- **Any full slab is found and becomes the first partial one.** -/
theorem Lists.toPartial {s : Heap} {c : Nat} (hl : Lists s.mem (s.caches c) mine full)
    (hlt : ∀ q, mine q → q < pageNum) (hmine : mine p) (hfull : full p) :
    ∃ prev, findLink (slabNext s.mem) (pageAddress p) (pageNum + 1) none (s.caches c).slabsFull
        = .after prev
      ∧ (∀ a, prev = some a → ∃ q, mine q ∧ a = pageAddress q)
      ∧ Lists (slabToPartial s c (pageAddress p) prev).mem
          ((slabToPartial s c (pageAddress p) prev).caches c) mine (fun q => full q ∧ q ≠ p) := by
  obtain ⟨lf, lp, hcf, hcp, hnd, hf, hp⟩ := hl
  obtain ⟨A, B, rfl⟩ := List.append_of_mem ((hf p).mpr ⟨hmine, hfull⟩)
  have hlen := length_le_pageNum (List.nodup_append.mp hnd).1 fun q hq => hlt q ((hf q).mp hq).1
  have hnd' : (p :: (A ++ B ++ lp)).Nodup := by
    have : (A ++ p :: (B ++ lp)).Nodup := by simpa using hnd
    rw [List.append_assoc]
    exact List.nodup_middle.mp this
  obtain ⟨hnot, hrest⟩ := List.nodup_cons.mp hnd'
  have hpA : p ∉ A := fun h => hnot (List.mem_append_left _ (List.mem_append_left _ h))
  have hpB : p ∉ B := fun h => hnot (List.mem_append_left _ (List.mem_append_right _ h))
  have hplp : p ∉ lp := fun h => hnot (List.mem_append_right _ h)
  have hpA' : pageAddress p ∉ A.map pageAddress := fun h => by
    obtain ⟨q, hq, he⟩ := List.mem_map.mp h
    exact hpA (pageAddress_inj he ▸ hq)
  rw [List.map_append, List.map_cons] at hcf
  have hfind := hcf.findLink_after (p := none) (f := pageNum + 1) hpA' (by
    simp only [List.length_map, List.length_append, List.length_cons] at *
    omega)
  -- the members of the two lists after the move
  have hmemf : ∀ q, q ∈ A ++ B ↔ mine q ∧ full q ∧ q ≠ p := by
    intro q
    have hq := hf q
    simp only [List.mem_append, List.mem_cons] at hq ⊢
    by_cases he : q = p
    · simp [he, hpA, hpB]
    · simpa [he] using hq
  have hmemp : ∀ q, q ∈ p :: lp ↔ mine q ∧ ¬ (full q ∧ q ≠ p) := by
    intro q
    rw [List.mem_cons, hp q]
    by_cases he : q = p <;> simp [he, hmine]
  have hnd2 : (A ++ B ++ p :: lp).Nodup := List.nodup_middle.mpr hnd'
  have hpart := chain_head hcp fun q hq => hlt q ((hp q).mp hq).1
  rcases List.eq_nil_or_concat A with rfl | ⟨A', q, rfl⟩
  · obtain ⟨hm, hcache⟩ := slabToPartial_none s c (pageAddress p)
    refine ⟨none, hfind, fun a ha => absurd ha (by simp), B, p :: lp, ?_, ?_, hnd2, hmemf, hmemp⟩
    · rw [hm, hcache]
      exact hcf.2.congr (slabNext_store_map s.mem _ hpB)
    · rw [hm, hcache]
      refine ⟨rfl, ?_⟩
      rw [slabNext_store_self s.mem _ hpart]
      exact hcp.congr (slabNext_store_map s.mem _ hplp)
  · obtain ⟨hm, hcache⟩ := slabToPartial_some s c (pageAddress p) (pageAddress q)
    rw [List.concat_eq_append] at *
    have hq : q ∈ A' ++ [q] := List.mem_append_right _ (List.mem_singleton.mpr rfl)
    have hmineq := (hmemf q).mp (List.mem_append_left _ hq)
    -- the write to the link of `q` unlinks `p`
    have hun : Chain (slabNext (s.mem.store 4 (pageAddress q) (s.mem.load 4 (pageAddress p))))
        (s.caches c).slabsFull ((A' ++ [q] ++ B).map pageAddress) := by
      have hmap : (A' ++ [q]).map pageAddress ++ pageAddress p :: B.map pageAddress
          = A'.map pageAddress ++ pageAddress q :: pageAddress p :: B.map pageAddress := by simp
      rw [hmap] at hcf
      have hndm : (A'.map pageAddress ++ pageAddress q :: pageAddress p :: B.map pageAddress).Nodup := by
        have h1 := (List.nodup_append.mp hnd).1.map (fun a b h => pageAddress_inj h)
        simpa using h1
      have hc' := hcf.unlink hndm
      rw [show (A' ++ [q] ++ B).map pageAddress
        = A'.map pageAddress ++ pageAddress q :: B.map pageAddress by simp]
      refine hc'.congr fun x hx => ?_
      obtain ⟨r, hr, rfl⟩ : ∃ r, r ∈ A' ++ q :: B ∧ pageAddress r = x := by
        have : x ∈ (A' ++ q :: B).map pageAddress := by simpa using hx
        exact List.mem_map.mp this
      by_cases he : r = q
      · subst he
        rw [Function.update_self, slabNext_store_load]
      · rw [Function.update_of_ne (fun h => he (pageAddress_inj h)), slabNext_store_ne _ _ he]
    refine ⟨some (pageAddress q), ?_, ?_, A' ++ [q] ++ B, p :: lp, ?_, ?_, hnd2, hmemf, hmemp⟩
    · rw [hfind]; simp
    · intro a ha
      exact ⟨q, hmineq.1, (Option.some.inj ha).symm⟩
    · rw [hcache]
      exact hun.congr (slabNext_store_map _ _ fun h => hnot (List.mem_append_left _ h))
    · rw [hm, hcache]
      refine ⟨rfl, ?_⟩
      rw [slabNext_store_self _ _ hpart]
      have hqlp : q ∉ lp := fun h => ((hp q).mp h).2 hmineq.2.1
      exact (hcp.congr (slabNext_store_map _ _ hqlp)).congr (slabNext_store_map _ _ hplp)

end Cyanurus.Slab
