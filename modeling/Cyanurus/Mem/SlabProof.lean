import Cyanurus.Mem.Slab

/-!
# What one slab keeps

The free indices of a slab are a linked list inside its array: `free` names the
first, every entry names the one after it, and the entry past the last object holds
`SLAB_FREE_END`. The same value marks the entries of objects in use, which is why
the list is described by its links (`Chain`) and not by the array as a whole.

`SlabOk m num h fl` says that the slab at `h` with `num` objects has exactly the
free indices `fl`, in list order. Each of `slab_new`, `slab_cache_alloc` and
`slab_cache_free` has one lemma here; all of them leave the objects alone.
-/

namespace Cyanurus.Slab

open Bytes

variable {m m' : Bytes} {num h x i : Nat} {fl : List Nat}

/-- The free array as links. -/
def freeNext (m : Bytes) (header i : Nat) : Option Nat :=
  if m.load 4 (freeEntry header i) = slabFreeEnd then none
  else some (m.load 4 (freeEntry header i))

theorem freeNext_congr (h' : m'.load 4 (freeEntry h i) = m.load 4 (freeEntry h i)) :
    freeNext m' h i = freeNext m h i := by unfold freeNext; rw [h']

theorem freeNext_none : freeNext m h i = none ↔ m.load 4 (freeEntry h i) = slabFreeEnd := by
  unfold freeNext
  split
  · rename_i he; simp [he]
  · rename_i he; simp [he]

theorem freeNext_some {y : Nat} (hy : freeNext m h i = some y) :
    m.load 4 (freeEntry h i) = y := by
  unfold freeNext at hy
  split at hy
  · cases hy
  · exact Option.some.inj hy

theorem freeEntry_apart {j : Nat} (hne : i ≠ j) : Apart (freeEntry h i) 4 (freeEntry h j) 4 := by
  unfold Apart freeEntry; omega

theorem free_apart (k n : Nat) : Apart (h + 4) 4 (freeEntry h k) n := by
  unfold Apart freeEntry slabHeaderBytes; omega

/-- The slab at `h` with `num` objects has the free indices `fl`. -/
structure SlabOk (m : Bytes) (num h : Nat) (fl : List Nat) : Prop where
  /-- `object` points behind the free array. -/
  object : m.load 4 (h + 8) = freeEntry h (num + 1)
  /-- `free` points at the first entry of the list, which ends at entry `num`. -/
  free : ∃ x, m.load 4 (h + 4) = freeEntry h x ∧ Chain (freeNext m h) (some x) (fl ++ [num])
  /-- No index is free twice. -/
  nodup : fl.Nodup
  /-- A free index is the index of an object. -/
  lt : ∀ i ∈ fl, i < num

/-- Only the two pointers and the free array count. -/
theorem SlabOk.congr (ok : SlabOk m num h fl) (ha : Agree m m' (h + 4) (8 + 4 * (num + 1))) :
    SlabOk m' num h fl := by
  have hload : ∀ a, h + 4 ≤ a → a + 4 ≤ h + 4 + (8 + 4 * (num + 1)) → m'.load 4 a = m.load 4 a :=
    fun a h1 h2 => load_congr (ha.sub h1 h2)
  obtain ⟨x, hx, hc⟩ := ok.free
  refine ⟨?_, ⟨x, ?_, hc.congr fun i hi => freeNext_congr ?_⟩, ok.nodup, ok.lt⟩
  · rw [hload _ (by omega) (by omega)]; exact ok.object
  · rw [hload _ (by omega) (by omega)]; exact hx
  · have hle : i ≤ num := by
      rcases List.mem_append.mp hi with hi | hi
      · exact Nat.le_of_lt (ok.lt i hi)
      · exact Nat.le_of_eq (List.mem_singleton.mp hi)
    exact hload _ (by unfold freeEntry slabHeaderBytes; omega)
      (by unfold freeEntry slabHeaderBytes; omega)

/-- A list is down to its last node exactly when the first link is null. -/
theorem chain_last {next : Nat → Option Nat} {l : List Nat} {z : Nat}
    (hc : Chain next (some x) (l ++ [z])) : next x = none ↔ l = [] := by
  cases l with
  | nil =>
    cases hc.1
    exact ⟨fun _ => rfl, fun _ => hc.2⟩
  | cons a l =>
    cases hc.1
    refine ⟨fun hn => ?_, fun hn => absurd hn (by simp)⟩
    have h2 := hc.2
    rw [hn] at h2
    exact absurd h2.head_none (by simp)

/-! ## Taking and putting back -/

/-- Where the pointers of a slab can point is far below the end of memory. -/
theorem freeEntry_lt (hb : freeEntry h (num + 1) < 2 ^ 32) (hi : i ≤ num) :
    freeEntry h i % 256 ^ 4 = freeEntry h i := by
  unfold freeEntry at *
  omega

theorem ptrIndex_entry (hi : i < 2 ^ 29) :
    ptrIndex (freeEntry h i) (freeEntry h 0) 4 = i := by
  unfold freeEntry
  rw [ptrIndex_eq (by omega) (by omega)]
  omega

/-- Memory after `slab_cache_alloc` has unlinked the index `x`. -/
def takeMem (m : Bytes) (h x y : Nat) : Bytes :=
  (m.store 4 (freeEntry h x) slabFreeEnd).store 4 (h + 4) (freeEntry h y)

/-- **Taking the first free index.** -/
theorem SlabOk.take (ok : SlabOk m num h (x :: fl)) (hb : freeEntry h (num + 1) < 2 ^ 32)
    (hnum : num < 2 ^ 29) :
    ptrIndex (m.load 4 (h + 4)) (freeEntry h 0) 4 = x
      ∧ SlabOk (takeMem m h x (m.load 4 (m.load 4 (h + 4)))) num h fl
      ∧ ((takeMem m h x (m.load 4 (m.load 4 (h + 4)))).load 4
          ((takeMem m h x (m.load 4 (m.load 4 (h + 4)))).load 4 (h + 4)) = slabFreeEnd
        ↔ fl = []) := by
  obtain ⟨x', hx', hc⟩ := ok.free
  obtain rfl : x' = x := Option.some.inj hc.1
  have hxlt : x' < num := ok.lt x' (List.mem_cons_self ..)
  obtain ⟨hxfl, hnd⟩ := List.nodup_cons.mp ok.nodup
  have hlt : ∀ i ∈ fl, i < num := fun i hi => ok.lt i (List.mem_cons_of_mem _ hi)
  -- the rest of the list starts at the link of `x'`
  obtain ⟨y, hy⟩ : ∃ y, freeNext m h x' = some y := by
    cases hn : freeNext m h x' with
    | some y => exact ⟨y, rfl⟩
    | none =>
      have h2 := hc.2
      rw [hn] at h2
      exact absurd h2.head_none (by simp)
  have hrest : Chain (freeNext m h) (some y) (fl ++ [num]) := by rw [← hy]; exact hc.2
  have hyle : y ≤ num := by
    cases fl with
    | nil => exact Nat.le_of_eq (Option.some.inj hrest.1)
    | cons a l =>
      cases hrest.1
      exact Nat.le_of_lt (hlt _ (List.mem_cons_self ..))
  rw [hx', freeNext_some hy]
  have hfree : (takeMem m h x' y).load 4 (h + 4) = freeEntry h y := by
    unfold takeMem
    rw [load_store_self, freeEntry_lt hb hyle]
  have hentry : ∀ i, i ≠ x' →
      (takeMem m h x' y).load 4 (freeEntry h i) = m.load 4 (freeEntry h i) := by
    intro i hi
    unfold takeMem
    rw [load_store_apart _ _ (free_apart i 4), load_store_apart _ _ (freeEntry_apart (Ne.symm hi))]
  have hnew : Chain (freeNext (takeMem m h x' y) h) (some y) (fl ++ [num]) := by
    refine hrest.congr fun i hi => freeNext_congr (hentry i ?_)
    intro he
    rw [he] at hi
    rcases List.mem_append.mp hi with hi | hi
    · exact hxfl hi
    · rw [List.mem_singleton.mp hi] at hxlt
      exact absurd hxlt (Nat.lt_irrefl _)
  refine ⟨ptrIndex_entry (by omega), ⟨?_, ⟨y, hfree, hnew⟩, hnd, hlt⟩, ?_⟩
  · unfold takeMem
    rw [load_store_apart _ _ (by unfold Apart; omega), load_store_apart _ _ ?_]
    · exact ok.object
    · unfold Apart freeEntry slabHeaderBytes; omega
  · rw [hfree, ← freeNext_none]
    exact chain_last hnew

/-- Memory after `slab_cache_free` has linked the index `i` in front of `y`. -/
def putMem (m : Bytes) (h i y : Nat) : Bytes :=
  (m.store 4 (freeEntry h i) y).store 4 (h + 4) (freeEntry h i)

/-- **Putting an index back.** -/
theorem SlabOk.put (ok : SlabOk m num h fl) (hb : freeEntry h (num + 1) < 2 ^ 32)
    (hnum : num < 2 ^ 29) (hi : i < num) (hifl : i ∉ fl) :
    ∃ y, ptrIndex (m.load 4 (h + 4)) (freeEntry h 0) 4 = y ∧ SlabOk (putMem m h i y) num h (i :: fl)
      ∧ ((putMem m h i y).load 4 (freeEntry h y) = slabFreeEnd ↔ fl = []) := by
  obtain ⟨y, hy, hc⟩ := ok.free
  have hmem : y ∈ fl ++ [num] := by
    cases fl with
    | nil => cases hc.1; exact List.mem_singleton.mpr rfl
    | cons a l => cases hc.1; exact List.mem_cons_self ..
  have hle : ∀ j ∈ fl ++ [num], j ≤ num ∧ j ≠ i := by
    intro j hj
    rcases List.mem_append.mp hj with hj | hj
    · exact ⟨Nat.le_of_lt (ok.lt j hj), fun he => hifl (by rw [← he]; exact hj)⟩
    · have := List.mem_singleton.mp hj
      omega
  obtain ⟨hyle, hyi⟩ := hle y hmem
  have hentry : ∀ j, j ≠ i →
      (putMem m h i y).load 4 (freeEntry h j) = m.load 4 (freeEntry h j) := by
    intro j hj
    unfold putMem
    rw [load_store_apart _ _ (free_apart j 4), load_store_apart _ _ (freeEntry_apart (Ne.symm hj))]
  have hself : (putMem m h i y).load 4 (freeEntry h i) = y := by
    unfold putMem
    rw [load_store_apart _ _ (free_apart i 4), load_store_self]
    omega
  have hnext : freeNext (putMem m h i y) h i = some y := by
    unfold freeNext
    rw [hself, if_neg (by unfold slabFreeEnd; omega)]
  have hold : Chain (freeNext (putMem m h i y) h) (some y) (fl ++ [num]) :=
    hc.congr fun j hj => freeNext_congr (hentry j (hle j hj).2)
  refine ⟨y, ?_, ⟨?_, ⟨i, ?_, ?_⟩, List.nodup_cons.mpr ⟨hifl, ok.nodup⟩, ?_⟩, ?_⟩
  · rw [hy]; exact ptrIndex_entry (by omega)
  · unfold putMem
    rw [load_store_apart _ _ (by unfold Apart; omega), load_store_apart _ _ ?_]
    · exact ok.object
    · unfold Apart freeEntry slabHeaderBytes; omega
  · unfold putMem
    rw [load_store_self, freeEntry_lt hb (Nat.le_of_lt hi)]
  · refine ⟨rfl, ?_⟩
    rw [hnext]
    exact hold
  · intro j hj
    rcases List.mem_cons.mp hj with he | hj
    · rw [he]; exact hi
    · exact ok.lt j hj
  · rw [← freeNext_none]
    exact chain_last hold

/-! ## A new slab -/

theorem linkFree_agree {a k : Nat} : ∀ {n : Nat}, Apart (freeEntry h 0) (4 * n) a k →
    Agree m (linkFree m h n) a k
  | 0, _ => Agree.refl _ _ _
  | n + 1, hap => by
    unfold Apart at hap
    refine (linkFree_agree (by unfold Apart; omega)).trans (store_agree _ _ ?_)
    unfold Apart freeEntry at *
    omega

theorem linkFree_entry (hn : freeEntry h (num + 1) < 2 ^ 32) : ∀ {n : Nat}, n ≤ num → i < n →
    (linkFree m h n).load 4 (freeEntry h i) = i + 1
  | 0, _, hi => absurd hi (Nat.not_lt_zero i)
  | n + 1, hle, hi => by
    rw [linkFree]
    by_cases he : i = n
    · subst he
      rw [load_store_self]
      unfold freeEntry at hn
      omega
    · rw [load_store_apart _ _ (freeEntry_apart (Ne.symm he))]
      exact linkFree_entry hn (by omega) (by omega)

/-- Memory after `slab_new`. -/
def newMem (m : Bytes) (h num : Nat) : Bytes :=
  (linkFree (((m.fill h slabHeaderBytes 0).store 4 (h + 4) (freeEntry h 0)).store 4 (h + 8)
    (freeEntry h (num + 1))) h num).store 4 (freeEntry h num) slabFreeEnd

/-- The free list of a new slab runs through all indices. -/
theorem newMem_chain (hb : freeEntry h (num + 1) < 2 ^ 32) : ∀ {n j : Nat}, j + n = num →
    Chain (freeNext (newMem m h num) h) (some j) (List.range' j n ++ [num])
  | 0, j, hj => by
    obtain rfl : j = num := by omega
    refine ⟨rfl, freeNext_none.mpr ?_⟩
    unfold newMem
    rw [load_store_self]
    rfl
  | n + 1, j, hj => by
    refine ⟨rfl, ?_⟩
    have hentry : (newMem m h num).load 4 (freeEntry h j) = j + 1 := by
      unfold newMem
      rw [load_store_apart _ _ (freeEntry_apart (by omega))]
      exact linkFree_entry hb (Nat.le_refl _) (by omega)
    have hnext : freeNext (newMem m h num) h j = some (j + 1) := by
      unfold freeNext
      rw [hentry, if_neg]
      unfold freeEntry at hb
      unfold slabFreeEnd
      omega
    rw [hnext]
    exact newMem_chain hb (by omega)

/-- **A new slab has all its objects free.** -/
theorem newMem_ok (m : Bytes) (hb : freeEntry h (num + 1) < 2 ^ 32) :
    SlabOk (newMem m h num) num h (List.range num) := by
  have hlow : ∀ a, a + 4 ≤ freeEntry h 0 → (newMem m h num).load 4 a
      = (((m.fill h slabHeaderBytes 0).store 4 (h + 4) (freeEntry h 0)).store 4 (h + 8)
          (freeEntry h (num + 1))).load 4 a := by
    intro a ha
    unfold newMem
    rw [load_store_apart _ _ (by unfold Apart freeEntry at *; omega)]
    exact load_congr (linkFree_agree (by unfold Apart; omega))
  refine ⟨?_, ⟨0, ?_, ?_⟩, List.nodup_range, fun i hi => List.mem_range.mp hi⟩
  · rw [hlow _ (by unfold freeEntry slabHeaderBytes; omega), load_store_self]
    exact Nat.mod_eq_of_lt hb
  · rw [hlow _ (by unfold freeEntry slabHeaderBytes; omega),
      load_store_apart _ _ (by unfold Apart; omega), load_store_self,
      freeEntry_lt hb (Nat.zero_le _)]
  · rw [List.range_eq_range']
    exact newMem_chain hb (Nat.zero_add num)

theorem newMem_next (m : Bytes) (h num : Nat) : slabNext (newMem m h num) h = none := by
  have hz : (newMem m h num).load 4 h = 0 := by
    have ha : Agree (m.fill h slabHeaderBytes 0) (newMem m h num) h 4 := by
      refine Agree.trans ?_ (store_agree _ _ (by unfold Apart freeEntry slabHeaderBytes; omega))
      refine Agree.trans ?_ (linkFree_agree (by unfold Apart freeEntry slabHeaderBytes; omega))
      exact (store_agree _ _ (by unfold Apart; omega)).trans
        (store_agree _ _ (by unfold Apart; omega))
    rw [load_congr ha]
    have hf : ∀ k, k < 4 → (m.fill h slabHeaderBytes 0) (h + k) = 0 := by
      intro k hk
      unfold fill slabHeaderBytes
      rw [if_pos ⟨by omega, by omega⟩]
    have h0 := hf 0 (by omega)
    have h1 := hf 1 (by omega)
    have h2 := hf 2 (by omega)
    have h3 := hf 3 (by omega)
    simp only [load, Nat.add_zero] at *
    rw [h0, h1, h2, h3]
    rfl
  unfold slabNext wordPtr
  rw [if_pos hz]

/-! ## Frames -/

theorem takeMem_agree {y a k : Nat} (hx : x ≤ num) (ha : Apart (h + 4) (8 + 4 * (num + 1)) a k) :
    Agree m (takeMem m h x y) a k := by
  refine (store_agree _ _ ?_).trans (store_agree _ _ ?_)
  · unfold Apart freeEntry slabHeaderBytes at *; omega
  · unfold Apart at *; omega

theorem putMem_agree {y a k : Nat} (hi : i ≤ num) (ha : Apart (h + 4) (8 + 4 * (num + 1)) a k) :
    Agree m (putMem m h i y) a k := by
  refine (store_agree _ _ ?_).trans (store_agree _ _ ?_)
  · unfold Apart freeEntry slabHeaderBytes at *; omega
  · unfold Apart at *; omega

theorem newMem_agree {a k : Nat} (ha : Apart h (12 + 4 * (num + 1)) a k) :
    Agree m (newMem m h num) a k := by
  refine Agree.trans ?_ (store_agree _ _ (by unfold Apart freeEntry slabHeaderBytes at *; omega))
  refine Agree.trans ?_ (linkFree_agree (by unfold Apart freeEntry slabHeaderBytes at *; omega))
  refine Agree.trans ?_ (store_agree _ _ (by unfold Apart at *; omega))
  refine Agree.trans ?_ (store_agree _ _ (by unfold Apart at *; omega))
  exact fill_agree _ _ (by unfold Apart slabHeaderBytes at *; omega)

end Cyanurus.Slab
