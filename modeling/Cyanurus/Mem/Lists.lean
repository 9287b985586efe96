import Cyanurus.Lib.Ring

/-!
# Intrusive lists

`src/kernel/lib/list.c`: a list is a ring of nodes, one of which is its head. The operations
follow pointers, and a null pointer that is followed is a fault (`none`); the loops are cut
off after `fuel` tests. What they do is stated for a heap of any number of lists, each
written as its head and its members in order.
-/

namespace Cyanurus

open Links

variable {α : Type} [DecidableEq α]

/-! ## The operations -/

/-- `list_init` -/
def listInit (h : Links α) (list : α) : Links α :=
  (h.setNext list (some list)).setPrev list (some list)

/-- `list_add` -/
def listAdd (h : Links α) (list item : α) : Option (Links α) := do
  let h := h.setPrev item (some list)
  let h := h.setNext item (h.next list)
  let h := h.setNext list (some item)
  let next ← h.next item
  some (h.setPrev next (some item))

/-- `list_empty` -/
def listEmpty (h : Links α) (list : α) : Bool := h.next list = some list

/-- `list_concat` -/
def listConcat (h : Links α) (list other : α) : Option (Links α) :=
  if listEmpty h other then some h
  else do
    let first ← h.next other
    let h := h.setPrev first (some list)
    let last ← h.prev other
    let h := h.setNext last (h.next list)
    let next ← h.next list
    let h := h.setPrev next (h.prev other)
    let h := h.setNext list (h.next other)
    some (listInit h other)

/-- `list_remove` -/
def listRemove (h : Links α) (item : α) : Option (Links α) := do
  let prev ← h.prev item
  let h := h.setNext prev (h.next item)
  let next ← h.next item
  let h := h.setPrev next (h.prev item)
  some ((h.setNext item none).setPrev item none)

/-- The loop of `list_length`. -/
def lengthLoop (h : Links α) (list : α) : Nat → Option α → Nat → Option Nat
  | 0, _, _ => none
  | fuel + 1, item, count =>
    if item = some list then some count
    else do
      let item ← item
      lengthLoop h list fuel (h.next item) (count + 1)

/-- `list_length` -/
def listLength (h : Links α) (list : α) (fuel : Nat) : Option Nat :=
  lengthLoop h list fuel (h.next list) 0

/-- The loop of `list_foreach_safe`, with the nodes that `body` is run on. -/
def foreachLoop (body : Links α → α → Option (Links α)) (list : α) :
    Nat → Links α → α → Option α → Option (List α × Links α)
  | 0, _, _, _ => none
  | fuel + 1, h, item, temp =>
    if item = list then some ([], h)
    else do
      let h ← body h item
      -- `item = temp, temp = item->next`
      let next ← temp
      let (visited, h) ← foreachLoop body list fuel h next (h.next next)
      some (item :: visited, h)

/-- `list_foreach_safe` -/
def listForeachSafe (body : Links α → α → Option (Links α)) (h : Links α) (list : α) (fuel : Nat) :
    Option (List α × Links α) := do
  let item ← h.next list
  foreachLoop body list fuel h item (h.next item)

variable {h h' : Links α} {list other item x y : α} {l m : List α} {ls : List (List α)}

/-! ## One operation -/

theorem Links.Rings.init (hr : h.Rings ls) (hx : list ∉ ls.flatten) :
    (listInit h list).Rings ([list] :: ls) := by
  refine Rings.cons_iff.mpr ⟨?_, List.nodup_singleton _, hr.frame fun x hm => ?_, fun x hm => ?_⟩
  · refine path_cons_cons.mpr ⟨⟨?_, ?_⟩, .singleton _⟩
    · simp [listInit]
    · simp [listInit]
  · have hne : x ≠ list := fun he => hx (he ▸ hm)
    simp [listInit, hne]
  · rw [List.mem_singleton.mp hm]
    exact hx

/-- **`list_add` puts the node first.** -/
theorem Links.Rings.add (hr : h.Rings ((list :: l) :: ls)) (hi : item ∉ ((list :: l) :: ls).flatten) :
    ∃ h', listAdd h list item = some h' ∧ h'.Rings ((list :: item :: l) :: ls) := by
  obtain ⟨hl, hnd, hls, hap⟩ := Rings.cons_iff.mp hr
  rw [List.flatten_cons, List.mem_append, not_or] at hi
  obtain ⟨hil, hils⟩ := hi
  obtain ⟨n, t, hnt⟩ := exists_first l list
  have hpath : h.Path (list :: n :: t) := hnt ▸ hl
  obtain ⟨hnext, -⟩ := (path_cons_cons.mp hpath).1
  have hmem : n ∈ list :: l := (List.perm_append_singleton list l).mem_iff.mp (by rw [hnt]; simp)
  have hne : item ≠ list := by grind
  have hni : item ≠ n := by grind
  refine ⟨(((h.setPrev item (some list)).setNext item (some n)).setNext list (some item)).setPrev n
    (some item), by simp [listAdd, hne, hnext], ?_⟩
  refine Rings.cons_iff.mpr ⟨?_, ?_, hls.frame fun y hy => ?_, fun y hy => ?_⟩
  · refine Ring.splice [] [] [item] l hl rfl rfl hnd (show [list] = [] ++ [list] from rfl) hnt ?_ ?_ ?_
    · refine path_cons_cons.mpr ⟨⟨?_, ?_⟩, path_cons_cons.mpr ⟨⟨?_, ?_⟩, .singleton n⟩⟩
      all_goals simp [hne, hni]
    · intro y hy hyp
      have : y ≠ item := by grind
      simp [hyp, this]
    · intro y hy hyn
      have : y ≠ item := by grind
      simp [hyn, this]
  · exact (List.Perm.swap list item l).nodup_iff.mp (List.nodup_cons.mpr ⟨hil, hnd⟩)
  · have h1 : y ≠ list := by grind
    have h2 : y ≠ item := by grind
    have h3 : y ≠ n := by grind
    simp [h1, h2, h3]
  · grind

/-- **`list_remove` takes out that node only.** -/
theorem Links.Rings.remove (hr : h.Rings ((list :: (l ++ item :: m)) :: ls)) :
    ∃ h', listRemove h item = some h' ∧ h'.next item = none ∧ h'.prev item = none ∧
      h'.Rings ((list :: (l ++ m)) :: ls) := by
  obtain ⟨hl, hnd, hls, hap⟩ := Rings.cons_iff.mp hr
  obtain ⟨a, p, hpa⟩ := exists_last list l
  obtain ⟨n, b, hnb⟩ := exists_first m list
  have hpath : h.Path (a ++ p :: item :: n :: b) := by
    have := hl
    rw [Links.Ring, List.append_assoc, List.cons_append, hnb, ← List.cons_append, hpa] at this
    simpa using this
  obtain ⟨⟨hpi, hip⟩, hpath⟩ := path_cons_cons.mp (path_append_cons.mp hpath).2
  obtain ⟨hin, hni⟩ := (path_cons_cons.mp hpath).1
  have hnm : n ∈ list :: m := (List.perm_append_singleton list m).mem_iff.mp (by rw [hnb]; simp)
  have hp : p ≠ item := by grind
  have hn : n ≠ item := by grind
  refine ⟨(((h.setNext p (some n)).setPrev n (some p)).setNext item none).setPrev item none,
    by simp [listRemove, hip, hin], by simp, by simp, ?_⟩
  refine Rings.cons_iff.mpr ⟨?_, by grind, hls.frame fun y hy => ?_, fun y hy => hap y (by grind)⟩
  · refine Ring.splice l [item] [] m hl (by simp) (by simp) (by grind) hpa hnb ?_ ?_ ?_
    · refine path_cons_cons.mpr ⟨⟨?_, ?_⟩, .singleton n⟩
      all_goals simp [hp, hn]
    · intro y hy hyp
      have : y ≠ item := by grind
      simp [hyp, this]
    · intro y hy hyn
      have : y ≠ item := by grind
      simp [hyn, this]
  · have h1 : y ≠ p := by grind
    have h2 : y ≠ item := by grind
    have h3 : y ≠ n := by grind
    simp [h1, h2, h3]

/-- **`list_concat` puts the members of the other list before those of the list.** -/
theorem Links.Rings.concat (hr : h.Rings ((list :: l) :: (other :: m) :: ls)) :
    ∃ h', listConcat h list other = some h' ∧ h'.Rings ((list :: (m ++ l)) :: [other] :: ls) := by
  obtain ⟨hl, hnd, hrest, hap⟩ := Rings.cons_iff.mp hr
  obtain ⟨hm, hndm, hls, hapm⟩ := Rings.cons_iff.mp hrest
  cases m with
  | nil =>
    have hempty := (path_cons_cons.mp hm).1.1
    exact ⟨h, by simp [listConcat, listEmpty, hempty], hr⟩
  | cons f m =>
    obtain ⟨n, t, hnt⟩ := exists_first l list
    obtain ⟨s, e, hse⟩ := exists_last f m
    have hpath : h.Path (list :: n :: t) := hnt ▸ hl
    obtain ⟨hnext, -⟩ := (path_cons_cons.mp hpath).1
    have hnl : n ∈ list :: l := (List.perm_append_singleton list l).mem_iff.mp (by rw [hnt]; simp)
    have hpathm : h.Path (other :: f :: (m ++ [other])) := hm
    obtain ⟨⟨hof, -⟩, hpathm⟩ := path_cons_cons.mp hpathm
    rw [← List.cons_append, hse, List.append_assoc] at hpathm
    obtain ⟨hpathm, hlast⟩ := path_append_cons.mp hpathm
    obtain ⟨-, heo⟩ := (path_cons_cons.mp hlast).1
    obtain ⟨hom, hndm⟩ := List.nodup_cons.mp hndm
    have hem : e ∈ f :: m := by rw [hse]; simp
    have hsep : ∀ x ∈ list :: l, x ≠ other ∧ x ∉ f :: m ∧ x ∉ ls.flatten := fun x hx => by
      simpa [and_assoc] using hap x hx
    have hfo : f ≠ other := by grind
    have hoe : other ≠ e := by grind
    have hle : list ≠ e := by grind
    have hnf : f ≠ n := by grind
    refine ⟨listInit ((((h.setPrev f (some list)).setNext e (some n)).setPrev n (some e)).setNext list
      (some f)) other, ?_, (Rings.init (Rings.cons_iff.mpr ⟨?_, ?_, hls.frame ?_, ?_⟩) ?_).swap⟩
    · simp [listConcat, listEmpty, hof, hfo, heo, Ne.symm hfo, hnext, hoe]
    · refine Ring.splice [] [] (f :: m) l hl rfl rfl hnd (show [list] = [] ++ [list] from rfl) hnt ?_ ?_ ?_
      · refine path_cons_cons.mpr ⟨⟨by simp, by simp [hnf]⟩, ?_⟩
        change Links.Path _ (f :: m ++ [n])
        rw [hse, List.append_assoc]
        refine path_append_cons.mpr ⟨hpathm.frame (fun y hy => ?_) fun y hy => ?_,
          path_cons_cons.mpr ⟨⟨by simp [Ne.symm hle], by simp⟩, .singleton n⟩⟩
        · rw [List.dropLast_concat] at hy
          have hyf : y ∈ f :: m := by rw [hse]; exact List.mem_append_left _ hy
          have h1 : y ≠ list := by grind
          have h2 : y ≠ e := by rw [hse] at hndm; grind
          simp [h1, h2]
        · rw [← hse] at hy
          have h1 : y ≠ n := by grind
          have h2 : y ≠ f := by grind
          simp [h1, h2]
      · intro y hy hyl
        have : y ≠ e := by grind
        simp [hyl, this]
      · intro y hy hyn
        have : y ≠ f := by grind
        simp [hyn, this]
    · have hperm : (list :: (f :: m ++ l)).Perm (f :: m ++ list :: l) := List.perm_middle.symm
      rw [hperm.nodup_iff]
      grind
    · intro y hy
      have h1 : y ≠ n := by grind
      have h2 : y ≠ list := by grind
      have h3 : y ≠ e := by grind
      have h4 : y ≠ f := by grind
      simp [h1, h2, h3, h4]
    · grind
    · grind

theorem Links.Rings.empty (hr : h.Rings ((list :: l) :: ls)) : listEmpty h list = l.isEmpty := by
  obtain ⟨hl, hnd, -, -⟩ := Rings.cons_iff.mp hr
  cases l with
  | nil => simp [listEmpty, (path_cons_cons.mp hl).1.1]
  | cons x l =>
    have hpath : h.Path (list :: x :: (l ++ [list])) := hl
    have hne : x ≠ list := by grind
    simp [listEmpty, (path_cons_cons.mp hpath).1.1, hne]

/-! ## Loops over a list -/

/-- From a node of the list on, the loop counts the members behind it. -/
theorem lengthLoop_eq (hp : h.Path (x :: (l ++ [list]))) (hx : list ∉ l) {fuel c : Nat}
    (hf : l.length < fuel) : lengthLoop h list fuel (h.next x) c = some (c + l.length) := by
  induction l generalizing x fuel c with
  | nil =>
    obtain ⟨fuel, rfl⟩ := Nat.exists_eq_add_of_lt hf
    simp [lengthLoop, (path_cons_cons.mp hp).1.1]
  | cons y l ih =>
    obtain ⟨fuel, rfl⟩ := Nat.exists_eq_add_one_of_ne_zero (Nat.ne_of_gt (Nat.zero_lt_of_lt hf))
    obtain ⟨⟨hnext, -⟩, hp⟩ := path_cons_cons.mp (show h.Path (x :: y :: (l ++ [list])) from hp)
    obtain ⟨hy, hx⟩ := List.ne_and_not_mem_of_not_mem_cons hx
    have := ih (c := c + 1) hp hx (Nat.lt_of_succ_lt_succ hf)
    simp [lengthLoop, hnext, hy.symm, this]
    omega

/-- A body that takes out some of the nodes it is run on. -/
def removing (removes : α → Bool) (h : Links α) (item : α) : Option (Links α) :=
  if removes item then listRemove h item else some h

-- What the loop has passed and kept stands before what it has still to visit; the node it
-- goes on with was read before the body ran, and the body does not touch that node's place.
theorem foreachLoop_eq (removes : α → Bool) (hr : h.Rings ((list :: (l ++ m)) :: ls)) {n : α}
    {t : List α} (hn : m ++ [list] = n :: t) {fuel : Nat} (hf : m.length < fuel) :
    ∃ h', foreachLoop (removing removes) list fuel h n (h.next n) = some (m, h') ∧
      h'.Rings ((list :: (l ++ m.filter (!removes ·))) :: ls) := by
  induction m generalizing l h n t fuel with
  | nil =>
    obtain ⟨rfl, rfl⟩ := List.cons.inj hn
    obtain ⟨fuel, rfl⟩ := Nat.exists_eq_add_of_lt hf
    exact ⟨h, by simp [foreachLoop], hr⟩
  | cons x m ih =>
    obtain ⟨rfl, rfl⟩ := List.cons.inj hn
    obtain ⟨fuel, rfl⟩ := Nat.exists_eq_add_one_of_ne_zero (Nat.ne_of_gt (Nat.zero_lt_of_lt hf))
    obtain ⟨hl, hnd, -, -⟩ := Rings.cons_iff.mp hr
    obtain ⟨n, t, hnt⟩ := exists_first m list
    have hne : x ≠ list := by grind
    have hnext : h.next x = some n := by
      have hpath : h.Path ((list :: l) ++ x :: (m ++ [list])) := by simpa [Links.Ring] using hl
      rw [hnt] at hpath
      exact (path_cons_cons.mp (path_append_cons.mp hpath).2).1.1
    cases hrm : removes x with
    | true =>
      obtain ⟨h₁, hrun, -, -, hr⟩ := hr.remove
      obtain ⟨h₂, hloop, hr⟩ := ih hr hnt (Nat.lt_of_succ_lt_succ hf)
      refine ⟨h₂, ?_, by simpa [hrm] using hr⟩
      simp [foreachLoop, hne, removing, hrm, hrun, hnext, hloop]
    | false =>
      obtain ⟨h₂, hloop, hr⟩ := ih (l := l ++ [x]) (by simpa using hr) hnt (Nat.lt_of_succ_lt_succ hf)
      refine ⟨h₂, ?_, by simpa [hrm] using hr⟩
      simp [foreachLoop, hne, removing, hrm, hnext, hloop]

/-! ## The lists of a heap -/

/-- What the operations make of a heap of lists, whatever other lists `ls` there are. -/
structure ListSpec (h : Links α) : Prop where
  init : ∀ {list ls}, h.Rings ls → list ∉ ls.flatten → (listInit h list).Rings ([list] :: ls)
  reinit : ∀ {list ls}, h.Rings ([list] :: ls) → (listInit h list).Rings ([list] :: ls)
  add : ∀ {list item l ls}, h.Rings ((list :: l) :: ls) → item ∉ ((list :: l) :: ls).flatten →
    ∃ h', listAdd h list item = some h' ∧ h'.Rings ((list :: item :: l) :: ls)
  remove : ∀ {list item l m ls}, h.Rings ((list :: (l ++ item :: m)) :: ls) →
    ∃ h', listRemove h item = some h' ∧ h'.next item = none ∧ h'.prev item = none ∧
      h'.Rings ((list :: (l ++ m)) :: ls)
  concat : ∀ {list other l m ls}, h.Rings ((list :: l) :: (other :: m) :: ls) →
    ∃ h', listConcat h list other = some h' ∧ h'.Rings ((list :: (m ++ l)) :: [other] :: ls)
  empty : ∀ {list l ls}, h.Rings ((list :: l) :: ls) → listEmpty h list = l.isEmpty
  length : ∀ {list l ls fuel}, h.Rings ((list :: l) :: ls) → l.length < fuel →
    listLength h list fuel = some l.length
  foreach : ∀ {list l ls fuel} (removes : α → Bool), h.Rings ((list :: l) :: ls) → l.length < fuel →
    ∃ h', listForeachSafe (removing removes) h list fuel = some (l, h') ∧
      h'.Rings ((list :: l.filter (!removes ·)) :: ls)

/-- **The operations keep every list a ring, with the members the operation says**, and the
loops visit each member once. -/
theorem list_spec (h : Links α) : ListSpec h where
  init := Rings.init
  reinit hr := by
    obtain ⟨-, -, hls, hap⟩ := Rings.cons_iff.mp hr
    exact hls.init (hap _ (List.mem_singleton_self _))
  add := Rings.add
  remove := Rings.remove
  concat := Rings.concat
  empty := Rings.empty
  length hr hf := by
    obtain ⟨hl, hnd, -, -⟩ := Rings.cons_iff.mp hr
    have := lengthLoop_eq (c := 0) hl (List.nodup_cons.mp hnd).1 hf
    rwa [Nat.zero_add] at this
  foreach {list l _ _} removes hr hf := by
    obtain ⟨n, t, hnt⟩ := exists_first l list
    obtain ⟨h', hloop, hr'⟩ := foreachLoop_eq removes (l := []) hr hnt hf
    have hpath : h.Path (list :: (l ++ [list])) := (Rings.cons_iff.mp hr).1
    rw [hnt] at hpath
    refine ⟨h', ?_, hr'⟩
    simp [listForeachSafe, (path_cons_cons.mp hpath).1.1, hloop]

end Cyanurus
