import Mathlib.Logic.Function.Basic

/-!
# Objects with identity

A store of objects that are created, changed and freed. Every object gets a name
that no object had before, so that a freed object and a later one are never
confused: a name whose object is gone stays dead. The structure carries the fact
that names from `next` on are unused.
-/

/-- The live objects, by name. -/
structure Store (α : Type*) where
  next : Nat
  get : Nat → Option α
  fresh : ∀ p, next ≤ p → get p = none

namespace Store

variable {α : Type*}

/-- No objects. -/
def empty : Store α := ⟨0, fun _ => none, fun _ _ => rfl⟩

/-- A new object; its name is the old `next`. -/
def alloc (s : Store α) (x : α) : Store α where
  next := s.next + 1
  get := Function.update s.get s.next (some x)
  fresh := fun p hp => by
    rw [Function.update_of_ne (by omega)]
    exact s.fresh p (by omega)

/-- Change the object `p`, if it is alive. -/
def modify (s : Store α) (p : Nat) (f : α → α) : Store α where
  next := s.next
  get := Function.update s.get p ((s.get p).map f)
  fresh := fun q hq => by
    by_cases h : q = p
    · subst h; rw [Function.update_self, s.fresh q hq]; rfl
    · rw [Function.update_of_ne h]; exact s.fresh q hq

/-- Free the object `p`. -/
def free (s : Store α) (p : Nat) : Store α where
  next := s.next
  get := Function.update s.get p none
  fresh := fun q hq => by
    by_cases h : q = p
    · subst h; rw [Function.update_self]
    · rw [Function.update_of_ne h]; exact s.fresh q hq

variable {s : Store α} {p q : Nat} {x : α} {f : α → α}

/-- A live name is an old one. -/
theorem lt_next (h : s.get p = some x) : p < s.next := by
  rcases Nat.lt_or_ge p s.next with hlt | hge
  · exact hlt
  · rw [s.fresh p hge] at h; cases h

@[simp] theorem alloc_self : (s.alloc x).get s.next = some x := by simp [alloc]

theorem alloc_ne (h : q ≠ s.next) : (s.alloc x).get q = s.get q := by simp [alloc, h]

theorem alloc_of_some {y : α} (h : s.get q = some y) : (s.alloc x).get q = some y := by
  rw [alloc_ne (Nat.ne_of_lt (lt_next h)), h]

/-- Only what is done to the object itself matters. -/
theorem modify_congr {g : α → α} (h : ∀ x, s.get p = some x → f x = g x) :
    s.modify p f = s.modify p g := by
  have hmap : (s.get p).map f = (s.get p).map g := Option.map_congr fun x hx => h x hx
  unfold modify
  simp only [hmap]

theorem modify_self : (s.modify p f).get p = (s.get p).map f := by simp [modify]

theorem modify_self_of (h : s.get q = some x) (hq : q = p) : (s.modify p f).get q = some (f x) := by
  subst hq
  rw [modify_self, h]
  rfl

theorem modify_ne (h : q ≠ p) : (s.modify p f).get q = s.get q := by simp [modify, h]

/-- A change that does nothing. -/
theorem modify_same (h : s.get p = some x) (hf : f x = x) : s.modify p f = s := by
  have hget : (s.modify p f).get = s.get := by
    funext q
    by_cases hq : q = p
    · subst hq
      rw [modify_self, h, Option.map_some, hf]
    · rw [modify_ne hq]
  simp only [modify] at hget ⊢
  simp only [hget]

/-- What is alive after a change was alive before. -/
theorem get_modify {y : α} (h : (s.modify p f).get q = some y) :
    ∃ x, s.get q = some x ∧ y = if q = p then f x else x := by
  by_cases hq : q = p
  · subst hq
    rw [modify_self, Option.map_eq_some_iff] at h
    obtain ⟨x, hx, hy⟩ := h
    exact ⟨x, hx, by rw [if_pos rfl, hy]⟩
  · rw [modify_ne hq] at h
    exact ⟨y, h, by rw [if_neg hq]⟩

@[simp] theorem isSome_modify : ((s.modify p f).get q).isSome = (s.get q).isSome := by
  by_cases hq : q = p
  · subst hq
    rw [modify_self, Option.isSome_map]
  · rw [modify_ne hq]

theorem modify_modify {g : α → α} : (s.modify p f).modify p g = s.modify p (g ∘ f) := by
  have hget : ((s.modify p f).modify p g).get = (s.modify p (g ∘ f)).get := by
    funext q
    by_cases hq : q = p
    · subst hq
      rw [modify_self, modify_self, modify_self, Option.map_map]
    · rw [modify_ne hq, modify_ne hq, modify_ne hq]
  simp only [modify] at hget ⊢
  simp only [hget]

@[simp] theorem free_self : (s.free p).get p = none := by simp [free]

theorem free_ne (h : q ≠ p) : (s.free p).get q = s.get q := by simp [free, h]

/-! ## Related stores

The same objects are alive, and each is related to what it was. -/

/-- Every object of `s` is alive in `t`, and `r` relates the two; `t` has no others. -/
def Rel (r : α → α → Prop) (s t : Store α) : Prop := ∀ p, Option.Rel r (s.get p) (t.get p)

section Rel

variable {t u : Store α} {r r' : α → α → Prop}

theorem Rel.refl (hr : ∀ x, r x x) (s : Store α) : Rel r s s := by
  intro p
  cases s.get p with
  | none => exact .none
  | some x => exact .some (hr x)

theorem Rel.trans (hr : ∀ {x y z}, r x y → r y z → r x z) (h : Rel r s t) (h' : Rel r t u) :
    Rel r s u := by
  intro p
  have h1 := h p
  have h2 := h' p
  generalize s.get p = a at *
  generalize t.get p = b at *
  generalize u.get p = c at *
  cases h1 with
  | none =>
    cases h2 with
    | none => exact .none
  | some h1 =>
    cases h2 with
    | some h2 => exact .some (hr h1 h2)

theorem Rel.mono (hr : ∀ {x y}, r x y → r' x y) (h : Rel r s t) : Rel r' s t := by
  intro p
  have h1 := h p
  generalize s.get p = a at *
  generalize t.get p = b at *
  cases h1 with
  | none => exact .none
  | some h1 => exact .some (hr h1)

/-- Where an object comes from. -/
theorem Rel.back {y : α} (h : Rel r s t) (hp : t.get p = some y) :
    ∃ x, s.get p = some x ∧ r x y := by
  have h1 := h p
  rw [hp] at h1
  generalize s.get p = a at *
  cases h1 with
  | some h1 => exact ⟨_, rfl, h1⟩

/-- What becomes of an object. -/
theorem Rel.forth (h : Rel r s t) (hp : s.get p = some x) : ∃ y, t.get p = some y ∧ r x y := by
  have h1 := h p
  rw [hp] at h1
  generalize t.get p = a at *
  cases h1 with
  | some h1 => exact ⟨_, rfl, h1⟩

/-- A change of one object that keeps to a reflexive relation. -/
theorem Rel.modify (hr : ∀ x, r x x) (p : Nat) (hf : ∀ x, r x (f x)) : Rel r s (s.modify p f) := by
  intro q
  by_cases hq : q = p
  · subst hq
    rw [modify_self]
    cases s.get q with
    | none => exact .none
    | some x => exact .some (hf x)
  · rw [modify_ne hq]
    exact Rel.refl hr s q

end Rel

/-! ## Keyed objects

A list of the names of all objects, whose keys are different and all of which are `ok`. -/

structure Listed {κ : Type*} (s : Store α) (list : List Nat) (key : α → κ) (ok : α → Prop) :
    Prop where
  mem : ∀ p, p ∈ list ↔ (s.get p).isSome
  nodup : list.Nodup
  ok : ∀ {p x}, s.get p = some x → ok x
  inj : ∀ {p q x y}, s.get p = some x → s.get q = some y → key x = key y → p = q

variable {κ : Type*} {list : List Nat} {key : α → κ} {ok ok' : α → Prop}

theorem Listed.mono (h : Listed s list key ok) (hok : ∀ {p x}, s.get p = some x → ok x → ok' x) :
    Listed s list key ok' :=
  ⟨h.mem, h.nodup, fun hp => hok hp (h.ok hp), h.inj⟩

theorem Listed.empty : Listed (empty : Store α) [] key ok :=
  ⟨fun p => by simp [Store.empty], List.nodup_nil, fun h => absurd h (by simp [Store.empty]),
    fun h => absurd h (by simp [Store.empty])⟩

/-- An object changes and keeps its key. -/
theorem Listed.modify (h : Listed s list key ok) (hp : s.get p = some x) (hkey : key (f x) = key x)
    (hok : ok' (f x))
    (hrest : ∀ {q y}, s.get q = some y → key y ≠ key x → ok y → ok' y) :
    Listed (s.modify p f) list key ok' := by
  have hkeys : ∀ {q y}, s.get q = some y → key (if q = p then f y else y) = key y := by
    intro q y hq
    by_cases hqp : q = p
    · subst hqp
      rw [hp] at hq
      cases hq
      rw [if_pos rfl, hkey]
    · rw [if_neg hqp]
  refine ⟨fun q => by rw [isSome_modify]; exact h.mem q, h.nodup, fun {q y} hq => ?_,
    fun {q r y z} hq hr hyz => ?_⟩
  · obtain ⟨w, hw, rfl⟩ := get_modify hq
    by_cases hqp : q = p
    · subst hqp
      rw [hp] at hw
      cases hw
      rw [if_pos rfl]
      exact hok
    · rw [if_neg hqp]
      exact hrest hw (fun hk => hqp (h.inj hw hp hk)) (h.ok hw)
  · obtain ⟨y', hy, rfl⟩ := get_modify hq
    obtain ⟨z', hz, rfl⟩ := get_modify hr
    rw [hkeys hy, hkeys hz] at hyz
    exact h.inj hy hz hyz

/-- A new object with a key of its own. -/
theorem Listed.alloc (h : Listed s list key ok)
    (hfresh : ∀ {q y}, s.get q = some y → key y ≠ key x) (hok : ok x) :
    Listed (s.alloc x) (s.next :: list) key ok := by
  have hcase : ∀ {q y}, (s.alloc x).get q = some y →
      (q = s.next ∧ y = x) ∨ (q ≠ s.next ∧ s.get q = some y) := by
    intro q y hq
    by_cases hqn : q = s.next
    · subst hqn
      rw [alloc_self] at hq
      exact Or.inl ⟨rfl, (Option.some.inj hq).symm⟩
    · rw [alloc_ne hqn] at hq
      exact Or.inr ⟨hqn, hq⟩
  refine ⟨fun q => ?_, List.nodup_cons.mpr ⟨fun hmem => ?_, h.nodup⟩, fun {q y} hq => ?_,
    fun {q r y z} hq hr hyz => ?_⟩
  · rw [List.mem_cons, h.mem q]
    by_cases hqn : q = s.next
    · subst hqn
      simp
    · rw [alloc_ne hqn]
      simp [hqn]
  · obtain ⟨y, hy⟩ := Option.isSome_iff_exists.mp ((h.mem _).mp hmem)
    exact Nat.lt_irrefl _ (lt_next hy)
  · rcases hcase hq with ⟨_, rfl⟩ | ⟨_, hq⟩
    · exact hok
    · exact h.ok hq
  · rcases hcase hq with ⟨rfl, rfl⟩ | ⟨_, hq'⟩
    · rcases hcase hr with ⟨rfl, _⟩ | ⟨_, hr'⟩
      · rfl
      · exact absurd hyz.symm (hfresh hr')
    · rcases hcase hr with ⟨rfl, rfl⟩ | ⟨_, hr'⟩
      · exact absurd hyz (hfresh hq')
      · exact h.inj hq' hr' hyz

/-- An object is freed. -/
theorem Listed.free (h : Listed s list key ok) (hp : s.get p = some x)
    (hrest : ∀ {q y}, s.get q = some y → key y ≠ key x → ok y → ok' y) :
    Listed (s.free p) (list.erase p) key ok' := by
  have hcase : ∀ {q y}, (s.free p).get q = some y → q ≠ p ∧ s.get q = some y := by
    intro q y hq
    by_cases hqp : q = p
    · subst hqp
      rw [free_self] at hq
      cases hq
    · rw [free_ne hqp] at hq
      exact ⟨hqp, hq⟩
  refine ⟨fun q => ?_, h.nodup.erase p, fun {q y} hq => ?_, fun {q r y z} hq hr hyz => ?_⟩
  · rw [h.nodup.mem_erase_iff, h.mem q]
    by_cases hqp : q = p
    · subst hqp
      simp
    · rw [free_ne hqp]
      simp [hqp]
  · obtain ⟨hqp, hq⟩ := hcase hq
    exact hrest hq (fun hk => hqp (h.inj hq hp hk)) (h.ok hq)
  · exact h.inj (hcase hq).2 (hcase hr).2 hyz

end Store
