import Mathlib.Data.List.Basic
import Mathlib.Data.List.Nodup

/-!
# Trees with parent links and lists of children

A node names its parent and lists its children. The root is its own parent and in nobody's
list; every other node is listed once, by its parent, and following parents from it leads
to the root (`Tree.Ok`).

Two operations keep this: a new leaf is put in front of the children of a node (`add`), and
a node is taken out while its children go to the root (`remove`).
-/

namespace ParentTree

variable {ι : Type*}

/-- A node: its parent and its children. -/
structure Node (ι : Type*) where
  parent : ι
  children : List ι

/-- The nodes by their names. -/
abbrev Tree (ι : Type*) := ι → Option (Node ι)

namespace Tree

variable {t : Tree ι} {root p c w : ι} {P C : Node ι}

/-- Following parents from the node leads to `root`. -/
inductive Under (t : Tree ι) (root : ι) : ι → Prop where
  | root : Under t root root
  | step {c : ι} {C : Node ι} : t c = some C → Under t root C.parent → Under t root c

structure Ok (t : Tree ι) (root : ι) : Prop where
  /-- The root is its own parent. -/
  top : ∃ R, t root = some R ∧ R.parent = root
  /-- A node is listed by its parent. -/
  listed : ∀ {c C}, t c = some C → c ≠ root → ∃ P, t C.parent = some P ∧ c ∈ P.children
  /-- Nobody else lists it. -/
  child : ∀ {p P c}, t p = some P → c ∈ P.children → c ≠ root ∧ ∃ C, t c = some C ∧ C.parent = p
  nodup : ∀ {p P}, t p = some P → P.children.Nodup
  under : ∀ {c C}, t c = some C → t.Under root c

/-- The root alone is its own parent. -/
theorem Ok.eq_root (h : t.Ok root) (hc : t c = some C) (hp : C.parent = c) : c = root := by
  have hind : ∀ q, t.Under root q → ∀ Q, t q = some Q → Q.parent = q → q = root := by
    intro q hu
    induction hu with
    | root => exact fun _ _ _ => rfl
    | @step q Q hq _ ih =>
      intro Q' hQ' hpar
      rw [hq] at hQ'
      cases hQ'
      rw [hpar] at ih
      exact ih Q hq hpar
  exact hind c (h.under hc) C hc hp

/-! ## A new leaf -/

variable [DecidableEq ι]

/-- `c` becomes the first child of `p`. -/
def add (t : Tree ι) (p c : ι) : Tree ι := fun q =>
  if q = c then some ⟨p, []⟩
  else if q = p then (t p).map fun P => { P with children := c :: P.children }
  else t q

theorem add_self : t.add p c c = some ⟨p, []⟩ := if_pos rfl

/-- An old node keeps its parent, and `p` alone gets a child. -/
theorem add_old {q : ι} {Q : Node ι} (hq : t q = some Q) (hne : q ≠ c) :
    t.add p c q = some ⟨Q.parent, if q = p then c :: Q.children else Q.children⟩ := by
  unfold add
  rw [if_neg hne]
  by_cases hqp : q = p
  · rw [if_pos hqp, if_pos hqp, ← hqp, hq]
    rfl
  · rw [if_neg hqp, if_neg hqp, hq]

theorem add_cases {q : ι} {Q : Node ι} (h : t.add p c q = some Q) :
    (q = c ∧ Q = ⟨p, []⟩) ∨ (q ≠ c ∧ ∃ Q₀, t q = some Q₀
      ∧ Q = ⟨Q₀.parent, if q = p then c :: Q₀.children else Q₀.children⟩) := by
  by_cases hqc : q = c
  · rw [hqc, add_self] at h
    exact .inl ⟨hqc, (Option.some.inj h).symm⟩
  · cases hq : t q with
    | some Q₀ =>
      rw [add_old hq hqc] at h
      exact .inr ⟨hqc, Q₀, rfl, (Option.some.inj h).symm⟩
    | none =>
      unfold add at h
      rw [if_neg hqc] at h
      by_cases hqp : q = p
      · rw [if_pos hqp, ← hqp, hq] at h
        cases h
      · rw [if_neg hqp, hq] at h
        cases h

theorem Ok.add (h : t.Ok root) (hp : t p = some P) (hc : t c = none) : (t.add p c).Ok root := by
  have hne : ∀ {q Q}, t q = some Q → q ≠ c := by
    rintro q Q hq rfl
    rw [hc] at hq
    cases hq
  obtain ⟨R, hR, hRp⟩ := h.top
  refine ⟨⟨_, add_old hR (hne hR), hRp⟩, fun {q Q} hq hroot => ?_, fun {q Q x} hq hx => ?_,
    fun {q Q} hq => ?_, fun {q Q} hq => ?_⟩
  · rcases add_cases hq with ⟨rfl, rfl⟩ | ⟨_, Q₀, hq₀, rfl⟩
    · refine ⟨_, add_old hp (hne hp), ?_⟩
      rw [if_pos rfl]
      exact List.mem_cons_self ..
    · obtain ⟨W, hW, hmem⟩ := h.listed hq₀ hroot
      refine ⟨_, add_old hW (hne hW), ?_⟩
      simp only
      split
      · exact List.mem_cons_of_mem _ hmem
      · exact hmem
  · rcases add_cases hq with ⟨_, rfl⟩ | ⟨_, Q₀, hq₀, rfl⟩
    · exact absurd hx List.not_mem_nil
    · -- the new leaf, or a child that was there
      have hcase : (x = c ∧ q = p) ∨ x ∈ Q₀.children := by
        split at hx
        · rename_i hqp
          exact (List.mem_cons.mp hx).imp (fun he => ⟨he, hqp⟩) id
        · exact .inr hx
      rcases hcase with ⟨rfl, rfl⟩ | hx
      · exact ⟨fun he => hne hR he.symm, _, add_self, rfl⟩
      · obtain ⟨hxr, X, hX, hpar⟩ := h.child hq₀ hx
        exact ⟨hxr, _, add_old hX (hne hX), hpar⟩
  · rcases add_cases hq with ⟨_, rfl⟩ | ⟨_, Q₀, hq₀, rfl⟩
    · exact List.nodup_nil
    · split
      · refine List.nodup_cons.mpr ⟨fun hmem => ?_, h.nodup hq₀⟩
        obtain ⟨_, C, hC, _⟩ := h.child hq₀ hmem
        exact hne hC rfl
      · exact h.nodup hq₀
  · -- the way to the root is the old one, with one step more for the leaf
    have hold : ∀ q, t.Under root q → (t.add p c).Under root q := by
      intro q hu
      induction hu with
      | root => exact .root
      | step hq _ ih => exact .step (add_old hq (hne hq)) ih
    rcases add_cases hq with ⟨rfl, rfl⟩ | ⟨_, Q₀, hq₀, rfl⟩
    · exact .step add_self (hold p (h.under hp))
    · exact hold q (h.under hq₀)

/-! ## A node goes -/

/-- `p`, which has the children `cs`, leaves the list of `w`, and its children go to the root. -/
def remove (t : Tree ι) (root w p : ι) (cs : List ι) : Tree ι := fun q =>
  if q = p then none
  else (t q).map fun Q =>
    { parent := if q ∈ cs then root else Q.parent
      children := (if q = root then cs else []) ++ if q = w then Q.children.erase p else Q.children }

variable {cs : List ι}

theorem remove_old {q : ι} {Q : Node ι} (hq : t q = some Q) (hne : q ≠ p) :
    t.remove root w p cs q = some
      { parent := if q ∈ cs then root else Q.parent
        children :=
          (if q = root then cs else []) ++ if q = w then Q.children.erase p else Q.children } := by
  unfold remove
  rw [if_neg hne, hq]
  rfl

theorem remove_cases {q : ι} {Q : Node ι} (h : t.remove root w p cs q = some Q) :
    q ≠ p ∧ ∃ Q₀, t q = some Q₀ ∧ Q =
      { parent := if q ∈ cs then root else Q₀.parent
        children :=
          (if q = root then cs else []) ++ if q = w then Q₀.children.erase p else Q₀.children } := by
  unfold remove at h
  by_cases hqp : q = p
  · rw [if_pos hqp] at h
    cases h
  · rw [if_neg hqp] at h
    obtain ⟨Q₀, hq₀, he⟩ := Option.map_eq_some_iff.mp h
    exact ⟨hqp, Q₀, hq₀, he.symm⟩

theorem Ok.remove (h : t.Ok root) (hp : t p = some P) (hne : p ≠ root) :
    (t.remove root P.parent p P.children).Ok root := by
  obtain ⟨R, hR, hRp⟩ := h.top
  have hchild : ∀ {x}, x ∈ P.children → x ≠ root ∧ ∃ X, t x = some X ∧ X.parent = p :=
    fun hx => h.child hp hx
  have hself : p ∉ P.children := by
    intro hmem
    obtain ⟨_, P', hP', hpar⟩ := hchild hmem
    rw [hp] at hP'
    cases hP'
    exact hne (h.eq_root hp hpar)
  have hroot : root ∉ P.children := fun hmem => (hchild hmem).1 rfl
  have hRt : t.remove root P.parent p P.children root = some _ := remove_old hR (Ne.symm hne)
  -- a child that another node lists is no child of `p`
  have hother : ∀ {q Q x X}, t q = some Q → q ≠ p → x ∈ Q.children → t x = some X → x ∉ P.children := by
    intro q Q x X hq hqp hx hX hmem
    obtain ⟨_, X₁, hX₁, h1⟩ := h.child hq hx
    obtain ⟨_, X₂, hX₂, h2⟩ := hchild hmem
    rw [hX₁] at hX₂
    cases hX₂
    exact hqp (h1.symm.trans h2)
  refine ⟨⟨_, hRt, ?_⟩, fun {q Q} hq hqr => ?_, fun {q Q x} hq hx => ?_, fun {q Q} hq => ?_,
    fun {q Q} hq => ?_⟩
  · rw [if_neg hroot]
    exact hRp
  · obtain ⟨hqp, Q₀, hq₀, rfl⟩ := remove_cases hq
    simp only
    by_cases hmem : q ∈ P.children
    · rw [if_pos hmem]
      refine ⟨_, hRt, List.mem_append_left _ ?_⟩
      rw [if_pos rfl]
      exact hmem
    · rw [if_neg hmem]
      obtain ⟨W, hW, hqW⟩ := h.listed hq₀ hqr
      have hWp : Q₀.parent ≠ p := by
        intro he
        rw [he, hp] at hW
        cases hW
        exact hmem hqW
      refine ⟨_, remove_old hW hWp, List.mem_append_right _ ?_⟩
      split
      · exact (List.mem_erase_of_ne hqp).mpr hqW
      · exact hqW
  · obtain ⟨hqp, Q₀, hq₀, rfl⟩ := remove_cases hq
    rcases List.mem_append.mp hx with hx | hx
    · -- a child of `p` that the root has taken over
      split at hx
      · rename_i hqr
        obtain ⟨hxr, X, hX, _⟩ := hchild hx
        refine ⟨hxr, _, remove_old hX fun he => hself (he ▸ hx), ?_⟩
        rw [if_pos hx, hqr]
      · exact absurd hx List.not_mem_nil
    · have hx₀ : x ∈ Q₀.children := by
        split at hx
        · exact List.mem_of_mem_erase hx
        · exact hx
      obtain ⟨hxr, X, hX, hpar⟩ := h.child hq₀ hx₀
      have hxp : x ≠ p := by
        rintro rfl
        rw [hp] at hX
        cases hX
        rw [if_pos hpar.symm] at hx
        exact (h.nodup hq₀).not_mem_erase hx
      refine ⟨hxr, _, remove_old hX hxp, ?_⟩
      rw [if_neg (hother hq₀ hqp hx₀ hX)]
      exact hpar
  · obtain ⟨hqp, Q₀, hq₀, rfl⟩ := remove_cases hq
    refine List.nodup_append.mpr ⟨?_, ?_, fun a ha b hb he => ?_⟩
    · split
      · exact h.nodup hp
      · exact List.nodup_nil
    · split
      · exact (h.nodup hq₀).erase p
      · exact h.nodup hq₀
    · subst he
      have hb₀ : a ∈ Q₀.children := by
        split at hb
        · exact List.mem_of_mem_erase hb
        · exact hb
      split at ha
      · obtain ⟨_, A, hA, _⟩ := hchild ha
        exact hother hq₀ hqp hb₀ hA ha
      · exact absurd ha List.not_mem_nil
  · -- the way of a child of `p` is cut short, the others do not pass `p`
    have hind : ∀ x, t.Under root x → x ≠ p → (t.remove root P.parent p P.children).Under root x := by
      intro x hu
      induction hu with
      | root => exact fun _ => .root
      | @step x X hx _ ih =>
        intro hxp
        refine .step (remove_old hx hxp) ?_
        by_cases hmem : x ∈ P.children
        · rw [if_pos hmem]
          exact .root
        · rw [if_neg hmem]
          refine ih fun he => ?_
          by_cases hxr : x = root
          · rw [hxr, hR] at hx
            cases hx
            exact hne (he.symm.trans hRp)
          · obtain ⟨W, hW, hxW⟩ := h.listed hx hxr
            rw [he, hp] at hW
            cases hW
            exact hmem hxW
    obtain ⟨hqp, Q₀, hq₀, _⟩ := remove_cases hq
    exact hind q (h.under hq₀) hqp

end Tree

end ParentTree
