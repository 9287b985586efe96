import Mathlib.Logic.Function.Basic
import Mathlib.Algebra.Order.Ring.Nat
import Mathlib.Data.List.Nodup

/-!
# Singly linked lists in a memory

A memory is a map `next` from a node to the node its link names. `Chain next h l`
says that following links from `h` visits exactly the nodes of `l`, in order, and
then meets a null link.

`findLink` is the search every unlink operation starts with: it walks the list
and returns the node whose link names the target, or the head when the target
comes first. It counts its steps, because a memory may hold a cycle.
-/

variable {α : Type*}

/-- The links from `h` on visit exactly `l`. -/
def Chain (next : α → Option α) : Option α → List α → Prop
  | h, [] => h = none
  | h, x :: l => h = some x ∧ Chain next (next x) l

namespace Chain

variable {next : α → Option α}

@[simp] theorem nil_iff {h : Option α} : Chain next h [] ↔ h = none := Iff.rfl

@[simp] theorem cons_iff {h : Option α} {x : α} {l : List α} :
    Chain next h (x :: l) ↔ h = some x ∧ Chain next (next x) l := Iff.rfl

/-- Links of nodes off the list do not matter. -/
theorem congr {next' : α → Option α} {l : List α} :
    ∀ {h : Option α}, (∀ x ∈ l, next' x = next x) → Chain next h l → Chain next' h l := by
  induction l with
  | nil => intro h _ hc; exact hc
  | cons x l ih =>
    intro h heq hc
    refine ⟨hc.1, ?_⟩
    rw [heq x (List.mem_cons_self ..)]
    exact ih (fun y hy => heq y (List.mem_cons_of_mem _ hy)) hc.2

/-- A memory holds at most one list from a given head. -/
theorem unique {l l' : List α} :
    ∀ {h : Option α}, Chain next h l → Chain next h l' → l = l' := by
  induction l generalizing l' with
  | nil =>
    intro h h1 h2
    cases l' with
    | nil => rfl
    | cons x l' => exact absurd (h2.1.symm.trans h1) (by simp)
  | cons x l ih =>
    intro h h1 h2
    cases l' with
    | nil => exact absurd (h1.1.symm.trans h2) (by simp)
    | cons y l' =>
      have hxy : x = y := Option.some.inj (h1.1.symm.trans h2.1)
      subst hxy
      rw [ih h1.2 h2.2]

theorem head_none {l : List α} (h : Chain next none l) : l = [] := unique h rfl

theorem head_some {x : α} {l : List α} (h : Chain next (some x) l) :
    ∃ l', l = x :: l' ∧ Chain next (next x) l' := by
  cases l with
  | nil => cases h
  | cons y l' =>
    obtain rfl : x = y := Option.some.inj h.1
    exact ⟨l', rfl, h.2⟩

/-- Redirecting the link of `y` past `x` unlinks `x`. -/
theorem unlink [DecidableEq α] {A B : List α} {x y : α} :
    ∀ {h : Option α}, (A ++ y :: x :: B).Nodup → Chain next h (A ++ y :: x :: B) →
      Chain (Function.update next y (next x)) h (A ++ y :: B) := by
  induction A with
  | nil =>
    intro h hnd hc
    refine ⟨hc.1, ?_⟩
    rw [Function.update_self]
    refine congr ?_ hc.2.2
    intro z hz
    refine Function.update_of_ne ?_ _ _
    rintro rfl
    simp only [List.nil_append, List.nodup_cons, List.mem_cons] at hnd
    exact hnd.1 (Or.inr hz)
  | cons a A ih =>
    intro h hnd hc
    have hne : a ≠ y := by
      rintro rfl
      simp at hnd
    refine ⟨hc.1, ?_⟩
    rw [Function.update_of_ne hne]
    exact ih (List.nodup_cons.mp hnd).2 hc.2

end Chain

/-- What a search for a node's predecessor finds. -/
inductive Link (α : Type*) where
  /-- The search did not come to an end in the steps it was given. -/
  | stuck
  /-- The list ended without the target. -/
  | absent
  /-- The target is on the list: `after none` when it is the first node. -/
  | after (prev : Option α)
deriving DecidableEq, Repr

/-- Walk from `cur`, whose predecessor is `prev`, until the target `x` comes up. -/
def findLink [DecidableEq α] (next : α → Option α) (x : α) : Nat → Option α → Option α → Link α
  | 0, _, _ => .stuck
  | _ + 1, _, none => .absent
  | fuel + 1, prev, some y =>
    if y = x then .after prev else findLink next x fuel (some y) (next y)

namespace Chain

variable {next : α → Option α} [DecidableEq α]

/-- The search stops in front of the target, wherever it is. -/
theorem findLink_after {x : α} {A B : List α} :
    ∀ {h p : Option α} {f : Nat}, Chain next h (A ++ x :: B) → x ∉ A →
      A.length + B.length + 1 < f →
      findLink next x f p h = .after (A.getLast?.or p) := by
  induction A with
  | nil =>
    intro h p f hc _ hf
    obtain ⟨g, rfl⟩ : ∃ g, f = g + 1 := ⟨f - 1, by omega⟩
    rw [hc.1, findLink, if_pos rfl]
    rfl
  | cons a A ih =>
    intro h p f hc hx hf
    obtain ⟨g, rfl⟩ : ∃ g, f = g + 1 := ⟨f - 1, by omega⟩
    simp only [List.mem_cons, not_or] at hx
    rw [hc.1, findLink, if_neg (fun he => hx.1 he.symm)]
    rw [ih hc.2 hx.2 (by simp at hf; omega)]
    cases A with
    | nil => rfl
    | cons b A =>
      obtain ⟨z, hz⟩ : ∃ z, (b :: A).getLast? = some z :=
        ⟨_, List.getLast?_eq_some_getLast (by simp)⟩
      rfl

end Chain

/-- The nodes met in at most `fuel` steps from `h`. -/
def walk (next : α → Option α) : Nat → Option α → List α
  | 0, _ => []
  | _ + 1, none => []
  | fuel + 1, some x => x :: walk next fuel (next x)

/-- A long enough walk reads the list off the memory. -/
theorem Chain.walk_eq {next : α → Option α} {l : List α} :
    ∀ {h : Option α} {f : Nat}, Chain next h l → l.length ≤ f → walk next f h = l := by
  induction l with
  | nil =>
    intro h f hc _
    rw [Chain.nil_iff.mp hc]
    cases f with
    | zero => rfl
    | succ g => rfl
  | cons x l ih =>
    intro h f hc hf
    cases f with
    | zero => cases hf
    | succ g => rw [hc.1, walk, ih hc.2 (by simpa using hf)]
