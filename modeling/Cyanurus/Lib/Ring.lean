import Mathlib.Data.List.Chain
import Mathlib.Data.List.Nodup
import Mathlib.Logic.Function.Basic

/-!
# Rings of nodes

Nodes with a forward and a backward pointer. `Path` is a list of nodes each of which points
to the next one, which points back; a ring is a path that returns to where it starts. A
change of pointers keeps a path if it spares the forward pointers of all its nodes but the
last, and the backward pointers of all but the first (`Path.frame`).
-/

namespace Cyanurus

/-- The pointers of the nodes; `none` is a null pointer. -/
structure Links (α : Type*) where
  next : α → Option α
  prev : α → Option α

namespace Links

variable {α : Type*} {h h' : Links α} {x y : α} {l m : List α} {ls : List (List α)}

section Assign

variable [DecidableEq α]

def setNext (h : Links α) (x : α) (y : Option α) : Links α :=
  { h with next := Function.update h.next x y }

def setPrev (h : Links α) (x : α) (y : Option α) : Links α :=
  { h with prev := Function.update h.prev x y }

@[simp] theorem setNext_next (h : Links α) (x z : α) (y : Option α) :
    (h.setNext x y).next z = if z = x then y else h.next z := Function.update_apply ..

@[simp] theorem setPrev_prev (h : Links α) (x z : α) (y : Option α) :
    (h.setPrev x y).prev z = if z = x then y else h.prev z := Function.update_apply ..

@[simp] theorem setNext_prev (h : Links α) (x : α) (y : Option α) : (h.setNext x y).prev = h.prev := rfl

@[simp] theorem setPrev_next (h : Links α) (x : α) (y : Option α) : (h.setPrev x y).next = h.next := rfl

end Assign

/-- `y` follows `x`, and knows it. -/
def Joined (h : Links α) (x y : α) : Prop := h.next x = some y ∧ h.prev y = some x

def Path (h : Links α) (l : List α) : Prop := l.IsChain h.Joined

/-- Pointers that a path does not use may change. -/
theorem Path.frame (hp : h.Path l) (hn : ∀ x ∈ l.dropLast, h'.next x = h.next x)
    (hb : ∀ x ∈ l.tail, h'.prev x = h.prev x) : h'.Path l := by
  induction l with
  | nil => exact .nil
  | cons x l ih =>
    cases l with
    | nil => exact .singleton x
    | cons y l =>
      obtain ⟨hxy, hrest⟩ := List.isChain_cons_cons.mp hp
      refine List.isChain_cons_cons.mpr ⟨⟨?_, ?_⟩, ih hrest (fun z hz => ?_) fun z hz => ?_⟩
      · rw [hn x (List.mem_cons_self ..)]
        exact hxy.1
      · rw [hb y (List.mem_cons_self ..)]
        exact hxy.2
      · exact hn z (List.mem_cons_of_mem _ hz)
      · exact hb z (List.mem_cons_of_mem _ hz)

/-- A ring, from one of its nodes on. -/
def Ring (h : Links α) : List α → Prop
  | [] => False
  | x :: l => h.Path (x :: (l ++ [x]))

theorem Ring.frame (hr : h.Ring l) (hl : ∀ x ∈ l, h'.next x = h.next x ∧ h'.prev x = h.prev x) :
    h'.Ring l := by
  cases l with
  | nil => exact hr
  | cons x l =>
    refine Path.frame (l := x :: (l ++ [x])) hr (fun y hy => (hl y ?_).1) fun y hy => (hl y ?_).2
    · rw [← List.cons_append, List.dropLast_concat] at hy
      exact hy
    · rw [List.tail_cons, List.mem_append, List.mem_singleton] at hy
      exact List.mem_cons.mpr hy.symm

/-- The nodes are in rings, and each in one of them. -/
structure Rings (h : Links α) (ls : List (List α)) : Prop where
  ring : ∀ l ∈ ls, h.Ring l
  nodup : ls.flatten.Nodup

theorem Rings.cons_iff : h.Rings (l :: ls) ↔
    h.Ring l ∧ l.Nodup ∧ h.Rings ls ∧ ∀ x ∈ l, x ∉ ls.flatten := by
  constructor
  · intro hr
    have hnd := hr.nodup
    rw [List.flatten_cons, List.nodup_append] at hnd
    exact ⟨hr.ring l (List.mem_cons_self ..), hnd.1,
      ⟨fun m hm => hr.ring m (List.mem_cons_of_mem _ hm), hnd.2.1⟩,
      fun x hx hx' => hnd.2.2 x hx x hx' rfl⟩
  · rintro ⟨hl, hnd, hls, hap⟩
    refine ⟨fun m hm => ?_, ?_⟩
    · rcases List.mem_cons.mp hm with rfl | hm
      · exact hl
      · exact hls.ring m hm
    · rw [List.flatten_cons, List.nodup_append]
      refine ⟨hnd, hls.nodup, fun x hx y hy he => ?_⟩
      rw [he] at hx
      exact hap y hx hy

theorem Rings.swap (hr : h.Rings (l :: m :: ls)) : h.Rings (m :: l :: ls) := by
  obtain ⟨hl, hnd, hr, hap⟩ := Rings.cons_iff.mp hr
  obtain ⟨hm, hndm, hls, hapm⟩ := Rings.cons_iff.mp hr
  refine Rings.cons_iff.mpr ⟨hm, hndm, Rings.cons_iff.mpr ⟨hl, hnd, hls, fun x hx => ?_⟩, fun x hx => ?_⟩
  · exact fun h => hap x hx (List.mem_append_right _ h)
  · intro h
    rcases List.mem_append.mp h with h | h
    · exact hap x h (List.mem_append_left _ hx)
    · exact hapm x hx h

/-- Behind a node of a ring comes another one, or the node itself. -/
theorem exists_first (l : List α) (x : α) : ∃ n t, l ++ [x] = n :: t := by
  cases l with
  | nil => exact ⟨x, [], rfl⟩
  | cons n t => exact ⟨n, t ++ [x], rfl⟩

theorem exists_last (x : α) (l : List α) : ∃ t p, x :: l = t ++ [p] :=
  ⟨_, _, (List.dropLast_append_getLast (List.cons_ne_nil x l)).symm⟩

/-- Rings none of whose nodes is assigned to. -/
theorem Rings.frame (hr : h.Rings ls)
    (hl : ∀ x ∈ ls.flatten, h'.next x = h.next x ∧ h'.prev x = h.prev x) : h'.Rings ls :=
  ⟨fun l hm => (hr.ring l hm).frame fun x hx => hl x (List.mem_flatten.mpr ⟨l, hm, hx⟩), hr.nodup⟩

theorem path_append_cons : h.Path (l ++ x :: m) ↔ h.Path (l ++ [x]) ∧ h.Path (x :: m) :=
  List.isChain_split

theorem path_cons_cons : h.Path (x :: y :: l) ↔ h.Joined x y ∧ h.Path (y :: l) :=
  List.isChain_cons_cons

/-- **One stretch of a ring is replaced by another.** The stretch `old` lies between `p` and
`n`, which may be the same node; these two and the nodes of the stretches are assigned to. -/
theorem Ring.splice {p n : α} {a' b' l' : List α} (a old new b : List α) (hr : h.Ring l)
    (hl : l = x :: (a ++ old ++ b)) (hl' : l' = x :: (a ++ new ++ b)) (hnd : (x :: (a ++ b)).Nodup)
    (hp : x :: a = a' ++ [p]) (hn : b ++ [x] = n :: b') (hnew : h'.Path (p :: (new ++ [n])))
    (hnext : ∀ y ∈ x :: (a ++ b), y ≠ p → h'.next y = h.next y)
    (hprev : ∀ y ∈ x :: (a ++ b), y ≠ n → h'.prev y = h.prev y) : h'.Ring l' := by
  -- the path around the ring, with any stretch between `p` and `n`
  have hround : ∀ s, x :: (a ++ s ++ b ++ [x]) = a' ++ p :: (s ++ n :: b') := by
    intro s
    rw [List.append_assoc _ b, hn, List.append_assoc, ← List.cons_append, hp]
    simp
  subst hl hl'
  have hold : h.Path (a' ++ p :: (old ++ n :: b')) := hround old ▸ hr
  obtain ⟨hleft, hright⟩ := path_append_cons.mp hold
  rw [← List.cons_append] at hright
  have hright := (path_append_cons.mp hright).2
  have hnb : n ∈ x :: b := (List.perm_append_singleton x b).mem_iff.mp (by rw [hn]; simp)
  have hrightNd : (n :: b').Nodup := by
    rw [← hn, (List.perm_append_singleton x b).nodup_iff]
    exact hnd.sublist ((List.sublist_append_right a b).cons_cons x)
  show h'.Path _
  rw [hround]
  refine path_append_cons.mpr ⟨hleft.frame (fun y hy => ?_) fun y hy => ?_, ?_⟩
  · exact hnext y (by grind) (by grind)
  · exact hprev y (by grind) (by grind)
  · rw [← List.cons_append]
    refine path_append_cons.mpr ⟨hnew, hright.frame (fun y hy => ?_) fun y hy => ?_⟩
    · exact hnext y (by grind) (by grind)
    · exact hprev y (by grind) (by grind)

end Links

end Cyanurus
