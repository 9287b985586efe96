import Mathlib.Logic.Function.Basic
import Mathlib.Algebra.Order.Ring.Nat

/-!
# Dyadic tilings

A range `[0, n)` cut into blocks, each of length `2 ^ k` and starting at a
multiple of `2 ^ k`. The map `ord` gives the order of the block that starts at an
index, and `none` where no block starts.

Two facts carry everything below. Cutting a block in half and joining two halves
keep the tiling. And where no block has its twin beside it, an aligned range lies
in one block, since its two halves would be twins.
-/

namespace Dyadic

/-- The block that shares a parent of order `k + 1` with the block at `h`. -/
def twin (h k : Nat) : Nat := if h / 2 ^ k % 2 = 1 then h - 2 ^ k else h + 2 ^ k

/-- `ord` cuts `[0, n)` into aligned blocks of order at most `m`. -/
structure Tiling (n m : Nat) (ord : Nat → Option Nat) : Prop where
  /-- No block is above the top order. -/
  top : ∀ {h k}, ord h = some k → k ≤ m
  /-- A block starts at a multiple of its length. -/
  aligned : ∀ {h k}, ord h = some k → 2 ^ k ∣ h
  /-- A block ends inside the range. -/
  inside : ∀ {h k}, ord h = some k → h + 2 ^ k ≤ n
  /-- Every index lies in some block. -/
  cover : ∀ {i}, i < n → ∃ h k, ord h = some k ∧ h ≤ i ∧ i < h + 2 ^ k
  /-- Two blocks do not overlap. -/
  disjoint : ∀ {h k h' k'}, ord h = some k → ord h' = some k' → h < h' → h + 2 ^ k ≤ h'

variable {n m : Nat} {ord : Nat → Option Nat} {h k i : Nat}

/-- No block starts strictly inside another. -/
theorem Tiling.none_inside (t : Tiling n m ord) (hk : ord h = some k)
    (hlo : h < i) (hhi : i < h + 2 ^ k) : ord i = none := by
  cases hi : ord i with
  | none => rfl
  | some j =>
    have := t.disjoint hk hi hlo
    omega

/-- The block an index lies in is unique. -/
theorem Tiling.unique (t : Tiling n m ord) {h' k' : Nat}
    (hk : ord h = some k) (hk' : ord h' = some k')
    (h1 : h ≤ i) (h2 : i < h + 2 ^ k) (h3 : h' ≤ i) (h4 : i < h' + 2 ^ k') : h = h' := by
  rcases Nat.lt_trichotomy h h' with hlt | heq | hgt
  · have := t.disjoint hk hk' hlt; omega
  · exact heq
  · have := t.disjoint hk' hk hgt; omega

/-! ## Cutting and joining -/

theorem Tiling.split (t : Tiling n m ord) (hk : ord h = some (k + 1)) :
    Tiling n m (Function.update (Function.update ord h (some k)) (h + 2 ^ k) (some k)) := by
  have hdvd : 2 ^ k ∣ h := Nat.dvd_trans ⟨2, by rw [Nat.pow_succ]⟩ (t.aligned hk)
  have hin := t.inside hk
  have htop := t.top hk
  -- every block of the new tiling is one of the halves or an old block
  have key : ∀ {i j}, Function.update (Function.update ord h (some k)) (h + 2 ^ k) (some k) i
        = some j →
      (i = h + 2 ^ k ∧ j = k) ∨ (i = h ∧ j = k) ∨ (i ≠ h ∧ i ≠ h + 2 ^ k ∧ ord i = some j) := by
    intro i j hij
    by_cases h1 : i = h + 2 ^ k
    · subst h1; simp at hij; exact Or.inl ⟨rfl, hij.symm⟩
    · rw [Function.update_of_ne h1] at hij
      by_cases h2 : i = h
      · subst h2; simp at hij; exact Or.inr (Or.inl ⟨rfl, hij.symm⟩)
      · rw [Function.update_of_ne h2] at hij
        exact Or.inr (Or.inr ⟨h2, h1, hij⟩)
  refine ⟨?_, ?_, ?_, ?_, ?_⟩
  · intro i j hij
    rcases key hij with ⟨_, rfl⟩ | ⟨_, rfl⟩ | ⟨_, _, ho⟩
    · omega
    · omega
    · exact t.top ho
  · intro i j hij
    rcases key hij with ⟨rfl, rfl⟩ | ⟨rfl, rfl⟩ | ⟨_, _, ho⟩
    · exact Nat.dvd_add hdvd (Nat.dvd_refl _)
    · exact hdvd
    · exact t.aligned ho
  · intro i j hij
    rcases key hij with ⟨rfl, rfl⟩ | ⟨rfl, rfl⟩ | ⟨_, _, ho⟩
    · omega
    · omega
    · exact t.inside ho
  · intro i hi
    obtain ⟨b, j, hb, h1, h2⟩ := t.cover hi
    by_cases hbh : b = h
    · subst hbh
      rw [hk] at hb
      cases hb
      by_cases hlow : i < b + 2 ^ k
      · exact ⟨b, k, by rw [Function.update_of_ne (by omega)]; simp, h1, hlow⟩
      · exact ⟨b + 2 ^ k, k, by simp, by omega, by omega⟩
    · have hne : b ≠ h + 2 ^ k := by
        rintro rfl
        rw [t.none_inside hk (by omega) (by omega)] at hb
        cases hb
      exact ⟨b, j, by rw [Function.update_of_ne hne, Function.update_of_ne hbh]; exact hb, h1, h2⟩
  · intro i j i' j' hij hij' hlt
    rcases key hij with ⟨rfl, rfl⟩ | ⟨rfl, rfl⟩ | ⟨hn1, hn2, ho⟩ <;>
    rcases key hij' with ⟨rfl, rfl⟩ | ⟨rfl, rfl⟩ | ⟨hm1, hm2, ho'⟩
    · omega
    · omega
    · have := t.disjoint hk ho' (by omega); omega
    · omega
    · omega
    · have := t.disjoint hk ho' hlt; omega
    · rcases Nat.lt_or_ge i h with hl | hl
      · have := t.disjoint ho hk hl; omega
      · rw [t.none_inside hk (by omega) (by omega)] at ho
        cases ho
    · exact t.disjoint ho hk hlt
    · exact t.disjoint ho ho' hlt

theorem Tiling.merge (t : Tiling n m ord) (hk : ord h = some k)
    (hk' : ord (h + 2 ^ k) = some k) (hdvd : 2 ^ (k + 1) ∣ h) (hm : k < m) :
    Tiling n m (Function.update (Function.update ord (h + 2 ^ k) none) h (some (k + 1))) := by
  have hin := t.inside hk'
  have key : ∀ {i j}, Function.update (Function.update ord (h + 2 ^ k) none) h (some (k + 1)) i
        = some j →
      (i = h ∧ j = k + 1) ∨ (i ≠ h ∧ i ≠ h + 2 ^ k ∧ ord i = some j) := by
    intro i j hij
    by_cases h1 : i = h
    · subst h1; simp at hij; exact Or.inl ⟨rfl, hij.symm⟩
    · rw [Function.update_of_ne h1] at hij
      by_cases h2 : i = h + 2 ^ k
      · subst h2; simp at hij
      · rw [Function.update_of_ne h2] at hij
        exact Or.inr ⟨h1, h2, hij⟩
  refine ⟨?_, ?_, ?_, ?_, ?_⟩
  · intro i j hij
    rcases key hij with ⟨_, rfl⟩ | ⟨_, _, ho⟩
    · omega
    · exact t.top ho
  · intro i j hij
    rcases key hij with ⟨rfl, rfl⟩ | ⟨_, _, ho⟩
    · exact hdvd
    · exact t.aligned ho
  · intro i j hij
    rcases key hij with ⟨rfl, rfl⟩ | ⟨_, _, ho⟩
    · omega
    · exact t.inside ho
  · intro i hi
    obtain ⟨b, j, hb, h1, h2⟩ := t.cover hi
    by_cases hbh : b = h
    · subst hbh
      rw [hk] at hb
      cases hb
      exact ⟨b, k + 1, by simp, h1, by omega⟩
    · by_cases hbt : b = h + 2 ^ k
      · subst hbt
        rw [hk'] at hb
        cases hb
        exact ⟨h, k + 1, by simp, by omega, by omega⟩
      · exact ⟨b, j, by rw [Function.update_of_ne hbh, Function.update_of_ne hbt]; exact hb, h1, h2⟩
  · intro i j i' j' hij hij' hlt
    rcases key hij with ⟨rfl, rfl⟩ | ⟨hn1, hn2, ho⟩ <;>
    rcases key hij' with ⟨rfl, rfl⟩ | ⟨hm1, hm2, ho'⟩
    · omega
    · have h1 := t.disjoint hk ho' hlt
      have h2 := t.disjoint hk' ho' (by omega)
      omega
    · exact t.disjoint ho hk hlt
    · exact t.disjoint ho ho' hlt

/-! ## Twins -/

theorem twin_of_dvd (hd : 2 ^ (k + 1) ∣ h) : twin h k = h + 2 ^ k := by
  obtain ⟨c, rfl⟩ := hd
  have : 2 ^ (k + 1) * c / 2 ^ k = 2 * c := by
    rw [Nat.pow_succ, Nat.mul_assoc, Nat.mul_div_cancel_left _ (Nat.two_pow_pos k)]
  rw [twin, if_neg (by omega)]

/-- An aligned block either starts its parent, or its twin does. -/
theorem parent_cases (hd : 2 ^ k ∣ h) :
    (2 ^ (k + 1) ∣ h ∧ twin h k = h + 2 ^ k) ∨
      (2 ^ (k + 1) ∣ twin h k ∧ h = twin h k + 2 ^ k ∧ twin h k = h - 2 ^ k) := by
  obtain ⟨c, rfl⟩ := hd
  have hdiv : 2 ^ k * c / 2 ^ k = c := Nat.mul_div_cancel_left _ (Nat.two_pow_pos k)
  rcases Nat.mod_two_eq_zero_or_one c with h0 | h1
  · left
    have hd : 2 ^ (k + 1) ∣ 2 ^ k * c := by
      exact Nat.mul_dvd_mul_left _ (Nat.dvd_of_mod_eq_zero h0)
    exact ⟨hd, twin_of_dvd hd⟩
  · right
    have ht : twin (2 ^ k * c) k = 2 ^ k * c - 2 ^ k := by rw [twin, hdiv, if_pos h1]
    obtain ⟨d, rfl⟩ : ∃ d, c = 2 * d + 1 := ⟨c / 2, by omega⟩
    have he : 2 ^ k * (2 * d + 1) - 2 ^ k = 2 ^ (k + 1) * d := by
      rw [Nat.pow_succ, Nat.mul_add, Nat.mul_one, Nat.add_sub_cancel, Nat.mul_assoc]
    refine ⟨by rw [ht, he]; exact Nat.dvd_mul_right _ _, ?_, ht⟩
    rw [ht, he, Nat.pow_succ, Nat.mul_add, Nat.mul_one, Nat.mul_assoc]

theorem twin_twin (hd : 2 ^ k ∣ h) : twin (twin h k) k = h := by
  rcases parent_cases hd with ⟨hd', ht⟩ | ⟨hd', he, _⟩
  · have h2 : 2 ^ k ∣ h + 2 ^ k := Nat.dvd_add hd (Nat.dvd_refl _)
    have hpos : 0 < 2 ^ k := Nat.two_pow_pos k
    rw [ht]
    rcases parent_cases h2 with ⟨h3, _⟩ | ⟨_, _, h4⟩
    · -- both `h` and `h + 2 ^ k` cannot be multiples of `2 ^ (k + 1)`
      have := (Nat.dvd_add_right hd').mp h3
      have := Nat.le_of_dvd hpos this
      omega
    · rw [h4]; omega
  · rw [twin_of_dvd hd']; exact he.symm

theorem twin_ne (hd : 2 ^ k ∣ h) : twin h k ≠ h := by
  rcases parent_cases hd with ⟨_, ht⟩ | ⟨_, he, _⟩ <;> omega

/-- **Free twins merge.** If no two twins have the property, an aligned range all of whose blocks
have it is part of one block. -/
theorem Tiling.one_block (t : Tiling n m ord) {P : Nat → Prop}
    (hno : ∀ {h k}, P h → ord h = some k → k < m → P (twin h k) → ord (twin h k) ≠ some k) :
    ∀ {j s : Nat}, j ≤ m → 2 ^ j ∣ s → s + 2 ^ j ≤ n →
      (∀ {h k i}, ord h = some k → h ≤ i → i < h + 2 ^ k → s ≤ i → i < s + 2 ^ j → P h) →
      ∃ h k, P h ∧ ord h = some k ∧ j ≤ k ∧ h ≤ s ∧ s < h + 2 ^ k := by
  intro j
  induction j with
  | zero =>
    intro s _ _ hn hP
    obtain ⟨h, k, hk, h1, h2⟩ := t.cover (i := s) (by omega)
    exact ⟨h, k, hP hk h1 h2 (Nat.le_refl s) (by omega), hk, Nat.zero_le k, h1, h2⟩
  | succ j ih =>
    intro s hj hd hn hP
    have hd' : 2 ^ j ∣ s := Nat.dvd_trans ⟨2, by rw [Nat.pow_succ]⟩ hd
    obtain ⟨h, k, hp, hk, hle, h1, h2⟩ := ih (by omega) hd' (by omega)
      fun hk h1 h2 h3 h4 => hP hk h1 h2 h3 (by omega)
    obtain ⟨h', k', hp', hk', hle', h1', h2'⟩ := ih (by omega) (Nat.dvd_add hd' (Nat.dvd_refl _))
      (by omega) fun hk h1 h2 h3 h4 => hP hk h1 h2 (by omega) (by omega)
    rcases Nat.eq_or_lt_of_le hle with rfl | hlt
    · rcases Nat.eq_or_lt_of_le hle' with rfl | hlt'
      · -- the two halves are twins
        obtain rfl : h = s := Nat.le_antisymm h1 (Nat.le_of_lt_add_of_dvd h2 hd' (t.aligned hk))
        obtain rfl : h' = h + 2 ^ j := Nat.le_antisymm h1'
          (Nat.le_of_lt_add_of_dvd h2' (Nat.dvd_add hd' (Nat.dvd_refl _)) (t.aligned hk'))
        rw [← twin_of_dvd hd] at hp' hk'
        exact absurd hk' (hno hp hk (by omega) hp')
      · -- the block of the upper half has the lower one in it
        have hdh : 2 ^ (j + 1) ∣ h' := Nat.dvd_trans (Nat.pow_dvd_pow 2 hlt') (t.aligned hk')
        exact ⟨h', k', hp', hk', hlt', Nat.le_of_lt_add_of_dvd (by omega) hdh hd, by omega⟩
    · exact ⟨h, k, hp, hk, hlt, h1, h2⟩

/-- **A tiling without twins is all of the top order.** -/
theorem Tiling.all_top (t : Tiling n m ord) (hn : 2 ^ m ∣ n)
    (hno : ∀ h k, ord h = some k → k < m → ord (twin h k) ≠ some k) :
    ∀ {h k}, ord h = some k → k = m := by
  intro h k hk
  have hin := t.inside hk
  have hlt := Nat.lt_div_mul_add (a := h) (Nat.two_pow_pos m)
  have hle := Nat.div_mul_le_self h (2 ^ m)
  have hds : 2 ^ m ∣ h / 2 ^ m * 2 ^ m := Nat.dvd_mul_left ..
  generalize h / 2 ^ m * 2 ^ m = s at hlt hle hds
  have hpos := Nat.two_pow_pos k
  have hsn : s + 2 ^ m ≤ n :=
    Nat.le_of_lt_add_of_dvd (by omega) (Nat.dvd_add hds (Nat.dvd_refl _)) hn
  obtain ⟨h', k', -, hk', hm, h1, h2⟩ := t.one_block (P := fun _ => True)
    (fun _ hk hlt _ => hno _ _ hk hlt) (Nat.le_refl m) hds hsn fun _ _ _ _ _ => trivial
  obtain rfl : k' = m := Nat.le_antisymm (t.top hk') hm
  have hs := Nat.le_of_lt_add_of_dvd h2 hds (t.aligned hk')
  obtain rfl := t.unique hk' hk (i := h) (by omega) (by omega) (Nat.le_refl h) (by omega)
  exact Option.some.inj (hk.symm.trans hk')

end Dyadic
