import Cyanurus.Lib.Store
import Mathlib.Algebra.BigOperators.Group.Finset.Basic
import Mathlib.Algebra.BigOperators.Fin
import Mathlib.Algebra.Order.BigOperators.Group.Finset

/-!
# Counting over tables and stores

What the entries of a table, or the objects of a store, add up to. One entry counts apart
from the rest: changing it changes its own share of the sum and nothing else.
-/

variable {α β M : Type*} [AddCommMonoid M]

/-! ## Tables -/

/-- The sum over the entries of a table. -/
def Vector.tally {n : Nat} (w : β → M) (v : Vector β n) : M := ∑ i : Fin n, w (v.get i)

theorem Vector.tally_eq_sum {n : Nat} (w : β → M) (v : Vector β n) :
    v.tally w = (v.toList.map w).sum := by
  have hlist : v.toList = List.ofFn v.get := by
    refine List.ext_getElem (by simp) fun i h1 h2 => ?_
    rw [List.getElem_ofFn]
    rfl
  rw [hlist, List.map_ofFn, List.sum_ofFn]
  rfl

theorem Vector.get_set_eq {n : Nat} (v : Vector β n) (i : Fin n) (x : β) : (v.set i x).get i = x :=
  Vector.getElem_set_self i.isLt

theorem Vector.get_set_ne {n : Nat} (v : Vector β n) {i j : Fin n} (x : β) (h : j ≠ i) :
    (v.set i x).get j = v.get j :=
  Vector.getElem_set_ne i.isLt j.isLt (Fin.val_ne_of_ne (Ne.symm h))

/-- An entry and the rest. -/
theorem Vector.tally_split {n : Nat} (w : β → M) (v : Vector β n) (i : Fin n) :
    ∃ rest, v.tally w = w (v.get i) + rest ∧ ∀ x, (v.set i x).tally w = w x + rest := by
  refine ⟨∑ j ∈ Finset.univ.erase i, w (v.get j), ?_, fun x => ?_⟩
  · exact (Finset.add_sum_erase _ (fun j => w (v.get j)) (Finset.mem_univ i)).symm
  · unfold Vector.tally
    rw [← Finset.add_sum_erase _ _ (Finset.mem_univ i), Vector.get_set_eq]
    congr 1
    refine Finset.sum_congr rfl fun j hj => ?_
    rw [Vector.get_set_ne v x (Finset.ne_of_mem_erase hj)]

/-! ## Stores -/

namespace Store

/-- The sum over the live objects. -/
def tally (w : α → M) (s : Store α) : M := ∑ p ∈ Finset.range s.next, ((s.get p).map w).getD 0

variable {s t : Store α} {p : Nat} {x : α} {w : α → M}

theorem tally_empty : (empty : Store α).tally w = 0 := Finset.sum_range_zero _

theorem tally_congr (hn : t.next = s.next) (h : ∀ p, (t.get p).map w = (s.get p).map w) :
    t.tally w = s.tally w := by
  unfold tally
  rw [hn]
  exact Finset.sum_congr rfl fun p _ => by rw [h p]

/-- Objects that are related weigh the same. -/
theorem Rel.tally {r : α → α → Prop} (h : Rel r s t) (hn : t.next = s.next)
    (hw : ∀ {x y}, r x y → w y = w x) : t.tally w = s.tally w := by
  refine tally_congr hn fun p => ?_
  have h1 := h p
  generalize s.get p = a at *
  generalize t.get p = b at *
  cases h1 with
  | none => rfl
  | some h1 => rw [Option.map_some, Option.map_some, hw h1]

/-- Objects that weigh something were there before, and weighed no less. -/
theorem tally_le {w : α → Nat} (hn : s.next ≤ t.next)
    (h : ∀ {p y}, t.get p = some y → w y = 0 ∨ ∃ x, s.get p = some x ∧ w y ≤ w x) :
    t.tally w ≤ s.tally w := by
  have hle : ∀ p, ((t.get p).map w).getD 0 ≤ ((s.get p).map w).getD 0 := by
    intro p
    cases hy : t.get p with
    | none => exact Nat.zero_le _
    | some y =>
      rcases h hy with hzero | ⟨x, hx, hxy⟩
      · exact Nat.le_trans (Nat.le_of_eq hzero) (Nat.zero_le _)
      · rw [hx]
        exact hxy
  have hnone : ∀ p ∈ Finset.range t.next, p ∉ Finset.range s.next → ((s.get p).map w).getD 0 = 0 := by
    intro p _ hp
    cases hx : s.get p with
    | none => rfl
    | some x => exact absurd (Finset.mem_range.mpr (lt_next hx)) hp
  calc t.tally w ≤ ∑ p ∈ Finset.range t.next, ((s.get p).map w).getD 0 :=
        Finset.sum_le_sum fun p _ => hle p
    _ = s.tally w := (Finset.sum_subset (Finset.range_mono hn) hnone).symm

theorem tally_alloc : (s.alloc x).tally w = s.tally w + w x := by
  have hnext : (s.alloc x).next = s.next + 1 := rfl
  unfold tally
  rw [hnext, Finset.sum_range_succ, alloc_self]
  congr 1
  refine Finset.sum_congr rfl fun p hp => ?_
  rw [alloc_ne (Nat.ne_of_lt (Finset.mem_range.mp hp))]

/-- A live object and the rest. -/
theorem tally_split (w : α → M) (hp : s.get p = some x) :
    ∃ rest, s.tally w = w x + rest ∧ (∀ f, (s.modify p f).tally w = w (f x) + rest)
      ∧ (s.free p).tally w = rest := by
  have hmem : p ∈ Finset.range s.next := Finset.mem_range.mpr (lt_next hp)
  refine ⟨∑ q ∈ (Finset.range s.next).erase p, ((s.get q).map w).getD 0, ?_, fun f => ?_, ?_⟩
  · unfold tally
    rw [← Finset.add_sum_erase _ _ hmem, hp]
    rfl
  · unfold tally
    have hnext : (s.modify p f).next = s.next := rfl
    rw [hnext, ← Finset.add_sum_erase _ _ hmem, modify_self, hp]
    congr 1
    refine Finset.sum_congr rfl fun q hq => ?_
    rw [modify_ne (Finset.ne_of_mem_erase hq)]
  · unfold tally
    have hnext : (s.free p).next = s.next := rfl
    rw [hnext, ← Finset.add_sum_erase _ _ hmem, free_self]
    refine (zero_add _).trans (Finset.sum_congr rfl fun q hq => ?_)
    rw [free_ne (Finset.ne_of_mem_erase hq)]

end Store
