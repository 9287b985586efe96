import Mathlib.Logic.Function.Basic

/-!
# Forests of pointers

A memory of words in which `word z j` is word `j` of node `z`, and a family of
roots. A path is a root `k` and the word indices to take from there, the last index
first, so that the tail of a path is the way to its parent. Node 0 is null, and
nothing is reached through it.

`Owned` is the ownership discipline: a node is reached by at most one path, and
every node that is reached satisfies `good`. There are three moves, each described
by what it does to the paths: nothing (`follow_congr`), hanging a node without
children under a free path (`follow_graft`), and cutting a path off
(`follow_prune`). A forest with fewer paths stays owned (`Owned.sub`).
-/

namespace Forest

variable {κ : Type*}

/-- The node at the end of a path, 0 if there is none. -/
def follow (root : κ → Nat) (word : Nat → Nat → Nat) (k : κ) : List Nat → Nat
  | [] => root k
  | j :: p => if follow root word k p = 0 then 0 else word (follow root word k p) j

/-- The paths a forest has room for: with a path, also the path to its parent. -/
structure Shape (κ : Type*) where
  ok : κ → List Nat → Prop
  up : ∀ {k j p}, ok k (j :: p) → ok k p

/-- Every node reached is good, and reached by one path only. -/
structure Owned (S : Shape κ) (root : κ → Nat) (word : Nat → Nat → Nat) (good : Nat → Prop) :
    Prop where
  good : ∀ {k p}, S.ok k p → follow root word k p ≠ 0 → good (follow root word k p)
  inj : ∀ {k p l q}, S.ok k p → S.ok l q → follow root word k p ≠ 0 →
    follow root word k p = follow root word l q → k = l ∧ p = q

variable {S : Shape κ} {root root' : κ → Nat} {word word' : Nat → Nat → Nat}
  {good good' : Nat → Prop} {k : κ} {p : List Nat}

theorem follow_cons {j : Nat} (h : follow root word k p ≠ 0) :
    follow root word k (j :: p) = word (follow root word k p) j := by rw [follow, if_neg h]

theorem follow_cons_zero {j : Nat} (h : follow root word k p = 0) :
    follow root word k (j :: p) = 0 := by rw [follow, if_pos h]

/-- The parent of a node that is reached is reached. -/
theorem follow_up {j : Nat} (h : follow root word k (j :: p) ≠ 0) : follow root word k p ≠ 0 :=
  fun h0 => h (follow_cons_zero h0)

/-- The cells of all paths but `(k, p)` hold what they held. -/
structure Elsewhere (S : Shape κ) (root root' : κ → Nat) (word word' : Nat → Nat → Nat) (k : κ)
    (p : List Nat) : Prop where
  roots : ∀ k', S.ok k' [] → (k' = k → p ≠ []) → root' k' = root k'
  words : ∀ k' j q, S.ok k' (j :: q) → (k' = k → p ≠ j :: q) → follow root word k' q ≠ 0 →
    word' (follow root word k' q) j = word (follow root word k' q) j

/-- Paths that do not go through `(k, p)` lead where they led. -/
theorem Elsewhere.follow_eq (he : Elsewhere S root root' word word' k p) :
    ∀ {l : κ} {q : List Nat}, S.ok l q → (l = k → ¬ p <:+ q) →
      follow root' word' l q = follow root word l q := by
  intro l q
  induction q with
  | nil =>
    intro hq hne
    exact he.roots l hq fun hk hp => hne hk (hp ▸ List.suffix_refl _)
  | cons j q ih =>
    intro hq hne
    have hq' := ih (S.up hq) fun hk hp => hne hk (hp.trans (List.suffix_cons j q))
    rw [follow, follow, hq']
    split
    · rfl
    · rename_i h0
      exact he.words l j q hq (fun hk hp => hne hk (hp ▸ List.suffix_refl _)) h0

/-- Hanging a node without children under a free path changes that path only. -/
theorem follow_graft {z : Nat} (he : Elsewhere S root root' word word' k p)
    (hz : follow root' word' k p = z) (hold : follow root word k p = 0)
    (hleaf : ∀ j, S.ok k (j :: p) → word' z j = 0) :
    ∀ {k' : κ} {q : List Nat}, S.ok k' q → (k' = k → p ≠ q) →
      follow root' word' k' q = follow root word k' q := by
  intro k' q
  induction q with
  | nil => intro hq hne; exact he.roots k' hq hne
  | cons j q ih =>
    intro hq hne
    by_cases hpar : k' = k ∧ p = q
    · -- below the new node, and below nothing before
      obtain ⟨rfl, rfl⟩ := hpar
      rw [follow_cons_zero hold, follow, hz]
      split
      · rfl
      · exact hleaf j hq
    · have hq' := ih (S.up hq) fun h1 h2 => hpar ⟨h1, h2⟩
      rw [follow, follow, hq']
      split
      · rfl
      · rename_i h0; exact he.words k' j q hq hne h0

/-- Cutting a path off leaves every path as it was or takes it away. -/
theorem follow_prune (he : Elsewhere S root root' word word' k p)
    (hz : follow root' word' k p = 0) :
    ∀ {k' : κ} {q : List Nat}, S.ok k' q →
      follow root' word' k' q = 0 ∨ follow root' word' k' q = follow root word k' q := by
  intro k' q
  induction q with
  | nil =>
    intro hq
    by_cases hkp : k' = k ∧ p = []
    · obtain ⟨rfl, rfl⟩ := hkp
      exact Or.inl hz
    · exact Or.inr (he.roots k' hq fun h1 h2 => hkp ⟨h1, h2⟩)
  | cons j q ih =>
    intro hq
    by_cases hkp : k' = k ∧ p = j :: q
    · obtain ⟨rfl, rfl⟩ := hkp
      exact Or.inl hz
    · rcases ih (S.up hq) with h0 | h0
      · exact Or.inl (follow_cons_zero h0)
      · right
        rw [follow, follow, h0]
        split
        · rfl
        · rename_i hne; exact he.words k' j q hq (fun h1 h2 => hkp ⟨h1, h2⟩) hne

/-! ## Ownership -/

/-- A new node under a free path. -/
theorem Owned.graft {z : Nat} (ho : Owned S root word good) (hz : follow root' word' k p = z)
    (hrest : ∀ {k' : κ} {q : List Nat}, S.ok k' q → (k' = k → p ≠ q) →
      follow root' word' k' q = follow root word k' q)
    (hnew : ∀ {k' : κ} {q : List Nat}, S.ok k' q → follow root word k' q ≠ 0 →
      follow root word k' q ≠ z)
    (hgood : good' z) (hmono : ∀ x, good x → good' x) : Owned S root' word' good' := by
  refine ⟨fun {k1 q1} h1 hne => ?_, fun {k1 q1 k2 q2} h1 h2 hne heq => ?_⟩
  · by_cases hc : k1 = k ∧ p = q1
    · obtain ⟨rfl, rfl⟩ := hc
      rw [hz]; exact hgood
    · rw [hrest h1 fun a b => hc ⟨a, b⟩] at hne ⊢
      exact hmono _ (ho.good h1 hne)
  · by_cases hc1 : k1 = k ∧ p = q1
    · obtain ⟨rfl, rfl⟩ := hc1
      by_cases hc2 : k2 = k1 ∧ p = q2
      · exact ⟨hc2.1.symm, hc2.2⟩
      · rw [hz] at heq hne
        rw [hrest h2 fun a b => hc2 ⟨a, b⟩] at heq
        exact absurd heq.symm (hnew h2 (by rw [← heq]; exact hne))
    · rw [hrest h1 fun a b => hc1 ⟨a, b⟩] at hne heq
      by_cases hc2 : k2 = k ∧ p = q2
      · obtain ⟨rfl, rfl⟩ := hc2
        rw [hz] at heq
        exact absurd heq (hnew h1 hne)
      · rw [hrest h2 fun a b => hc2 ⟨a, b⟩] at heq
        exact ho.inj h1 h2 hne heq

/-- A forest that has lost paths. -/
theorem Owned.sub (ho : Owned S root word good)
    (hsub : ∀ {k : κ} {q : List Nat}, S.ok k q →
      follow root' word' k q = 0 ∨ follow root' word' k q = follow root word k q)
    (hgood : ∀ {k : κ} {q : List Nat}, S.ok k q → follow root' word' k q ≠ 0 →
      good' (follow root' word' k q)) : Owned S root' word' good' := by
  refine ⟨fun h1 hne => hgood h1 hne, fun {k1 q1 k2 q2} h1 h2 hne heq => ?_⟩
  have e1 := (hsub h1).resolve_left hne
  have e2 := (hsub h2).resolve_left (by rw [← heq]; exact hne)
  rw [e1] at hne heq
  rw [e2] at heq
  exact ho.inj h1 h2 hne heq

theorem Owned.congr (ho : Owned S root word good)
    (heq : ∀ {k : κ} {q : List Nat}, S.ok k q →
      follow root' word' k q = follow root word k q)
    (hmono : ∀ x, good x → good' x) : Owned S root' word' good' :=
  ho.sub (fun h => Or.inr (heq h)) fun h hne => by
    rw [heq h] at hne ⊢
    exact hmono _ (ho.good h hne)

/-- The node cut off is not reached any more. -/
theorem Owned.pruned {z : Nat} (ho : Owned S root word good) (hk : S.ok k p)
    (hz : follow root word k p = z) (h0 : z ≠ 0) (hcut : follow root' word' k p = 0)
    (hsub : ∀ {k : κ} {q : List Nat}, S.ok k q →
      follow root' word' k q = 0 ∨ follow root' word' k q = follow root word k q)
    {k' : κ} {q : List Nat} (h' : S.ok k' q) (hne : follow root' word' k' q ≠ 0) :
    follow root' word' k' q ≠ z := by
  intro heq
  have e := (hsub h').resolve_left hne
  rw [e, ← hz] at heq
  obtain ⟨rfl, rfl⟩ := ho.inj hk h' (by rw [hz]; exact h0) heq.symm
  exact hne hcut

end Forest
