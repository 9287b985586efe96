import Mathlib.Logic.Function.Basic
import Mathlib.Algebra.Order.Ring.Nat

/-!
# Byte memories and little-endian words

A memory holds one byte at every address. A word of `n` bytes is read and written
with its low byte first; a write keeps the low `n` bytes of the value.

Everything is proved from two facts: a read depends only on the bytes it covers
(`load_congr`), and a write changes only the bytes it covers (`store_agree`).
`Agree m m' a n` is the frame condition both are stated with.
-/

abbrev Bytes := Nat → UInt8

namespace Bytes

/-- The little-endian number in the `n` bytes at `a`. -/
def load (m : Bytes) : Nat → Nat → Nat
  | 0, _ => 0
  | n + 1, a => (m a).toNat + 256 * load m n (a + 1)

/-- Put the low `n` bytes of `v` at `a`. -/
def store (m : Bytes) (n a v : Nat) : Bytes := fun x =>
  if a ≤ x ∧ x < a + n then UInt8.ofNat (v / 256 ^ (x - a)) else m x

/-- Put `n` copies of the byte `v` at `a`. -/
def fill (m : Bytes) (a n : Nat) (v : UInt8) : Bytes := fun x =>
  if a ≤ x ∧ x < a + n then v else m x

/-- Put the `n` bytes that `src` has at `b` at `a`. -/
def copy (m : Bytes) (a : Nat) (src : Bytes) (b n : Nat) : Bytes := fun x =>
  if a ≤ x ∧ x < a + n then src (b + (x - a)) else m x

/-- The two memories hold the same `n` bytes at `a`. -/
def Agree (m m' : Bytes) (a n : Nat) : Prop := ∀ x, a ≤ x → x < a + n → m' x = m x

/-- The ranges `[a, a + n)` and `[b, b + k)` do not meet. -/
def Apart (a n b k : Nat) : Prop := a + n ≤ b ∨ b + k ≤ a

variable {m m' : Bytes} {a b n k v : Nat}

theorem Agree.sub (h : Agree m m' a n) (h1 : a ≤ b) (h2 : b + k ≤ a + n) : Agree m m' b k :=
  fun x hx hx' => h x (by omega) (by omega)

theorem Agree.trans {m'' : Bytes} (h : Agree m m' a n) (h' : Agree m' m'' a n) :
    Agree m m'' a n := fun x hx hx' => (h' x hx hx').trans (h x hx hx')

theorem Agree.refl (m : Bytes) (a n : Nat) : Agree m m a n := fun _ _ _ => rfl

theorem load_congr : ∀ {n a : Nat}, Agree m m' a n → load m' n a = load m n a
  | 0, _, _ => rfl
  | n + 1, a, h => by
    rw [load, load, h a (Nat.le_refl a) (by omega)]
    rw [load_congr (h.sub (Nat.le_succ a) (by omega))]

/-- The same bytes at another place. -/
theorem load_shift : ∀ {n a b : Nat}, (∀ x, x < n → m' (b + x) = m (a + x)) →
    load m' n b = load m n a
  | 0, _, _, _ => rfl
  | n + 1, a, b, h => by
    have h0 := h 0 (by omega)
    rw [Nat.add_zero, Nat.add_zero] at h0
    rw [load, load, h0, load_shift (n := n) (a := a + 1) fun x hx => ?_]
    have := h (x + 1) (by omega)
    rwa [show b + (x + 1) = b + 1 + x by omega, show a + (x + 1) = a + 1 + x by omega] at this

theorem load_zero : ∀ n a : Nat, load (fun _ => 0) n a = 0
  | 0, _ => rfl
  | n + 1, a => by rw [load, load_zero n (a + 1)]; rfl

theorem load_fill_zero (m : Bytes) (h1 : a ≤ b) (h2 : b + k ≤ a + n) :
    load (fill m a n 0) k b = 0 := by
  rw [load_shift (m := fun _ => 0) (a := 0) fun x hx => ?_, load_zero]
  unfold fill
  rw [if_pos (by omega)]

theorem load_lt (m : Bytes) : ∀ n a : Nat, load m n a < 256 ^ n
  | 0, _ => by simp [load]
  | n + 1, a => by
    have h1 := load_lt m n (a + 1)
    have h2 := (m a).toNat_lt
    rw [load]
    omega

/-- A word of `n + k` bytes by its low and its high part. -/
theorem load_add (m : Bytes) : ∀ n k a : Nat, load m (n + k) a = load m n a + 256 ^ n * load m k (a + n)
  | 0, k, a => by simp [load]
  | n + 1, k, a => by
    rw [show n + 1 + k = n + k + 1 by omega, load, load, load_add m n k (a + 1),
      show a + 1 + n = a + (n + 1) by omega, Nat.pow_succ', Nat.mul_add, Nat.mul_assoc, Nat.add_assoc]

theorem store_agree (m : Bytes) (v : Nat) (h : Apart a n b k) : Agree m (store m n a v) b k := by
  intro x hx hx'
  unfold store
  rw [if_neg]
  unfold Apart at h
  omega

theorem fill_agree (m : Bytes) (v : UInt8) (h : Apart a n b k) : Agree m (fill m a n v) b k := by
  intro x hx hx'
  unfold fill
  rw [if_neg]
  unfold Apart at h
  omega

theorem copy_agree (m src : Bytes) (c : Nat) (h : Apart a n b k) :
    Agree m (copy m a src c n) b k := by
  intro x hx hx'
  unfold copy
  rw [if_neg]
  unfold Apart at h
  omega

theorem copy_in (m src : Bytes) {x : Nat} (h : x < n) : copy m a src b n (a + x) = src (b + x) := by
  unfold copy
  rw [if_pos (by omega), Nat.add_sub_cancel_left]

theorem copy_out (m src : Bytes) {x : Nat} (h : x < a ∨ a + n ≤ x) : copy m a src b n x = m x := by
  unfold copy
  rw [if_neg (by omega)]

/-- Two copies of adjacent ranges are one. -/
theorem copy_copy (m src : Bytes) (a b n k : Nat) :
    copy (copy m a src b n) (a + n) src (b + n) k = copy m a src b (n + k) := by
  funext x
  unfold copy
  by_cases h1 : a + n ≤ x ∧ x < a + n + k
  · rw [if_pos h1, if_pos (by omega), show b + n + (x - (a + n)) = b + (x - a) by omega]
  · rw [if_neg h1]
    by_cases h2 : a ≤ x ∧ x < a + n
    · rw [if_pos h2, if_pos (by omega)]
    · rw [if_neg h2, if_neg (by omega)]

theorem copy_nothing (m src : Bytes) (a b : Nat) : copy m a src b 0 = m := by
  funext x
  unfold copy
  rw [if_neg (by omega)]

/-- A word is read back as it was written, cut to its width. -/
theorem load_store_self (m : Bytes) : ∀ (n a v : Nat), load (store m n a v) n a = v % 256 ^ n
  | 0, _, v => by simp [load, Nat.mod_one]
  | n + 1, a, v => by
    have hhead : ((store m (n + 1) a v) a).toNat = v % 256 := by
      simp [store]
    have htail : Agree (store m n (a + 1) (v / 256)) (store m (n + 1) a v) (a + 1) n := by
      intro x hx hx'
      unfold store
      rw [if_pos ⟨by omega, by omega⟩, if_pos ⟨hx, by omega⟩, Nat.div_div_eq_div_mul,
        ← Nat.pow_succ', show x - a = (x - (a + 1)).succ by omega]
    rw [load, load_congr htail, load_store_self m n (a + 1) (v / 256), hhead, Nat.pow_succ',
      Nat.mod_mul]

theorem load_store_apart (m : Bytes) (v : Nat) (h : Apart a n b k) :
    load (store m n a v) k b = load m k b := load_congr (store_agree m v h)

/-! ## Low and high bits -/

/-- Bits below an aligned number are added to it. -/
theorem or_low {c : Nat} (h : 2 ^ k ∣ a) (hc : c < 2 ^ k) : a ||| c = a + c := by
  obtain ⟨q, rfl⟩ := h
  exact (Nat.two_pow_add_eq_or_of_lt hc q).symm

/-- The mask of the bits from `k` on rounds down to a multiple of `2 ^ k`. -/
theorem and_high {x : Nat} (hk : k ≤ n) (hx : x < 2 ^ n) :
    (2 ^ n - 2 ^ k) &&& x = x / 2 ^ k * 2 ^ k := by
  have hmask : 2 ^ n - 2 ^ k = (2 ^ (n - k) - 1) * 2 ^ k := by
    rw [Nat.sub_mul, ← Nat.pow_add, Nat.one_mul, Nat.sub_add_cancel hk]
  apply Nat.eq_of_testBit_eq
  intro i
  rw [hmask, Nat.testBit_and, Nat.testBit_mul_two_pow, Nat.testBit_mul_two_pow,
    Nat.testBit_two_pow_sub_one]
  by_cases hi : k ≤ i
  · by_cases hin : i < n
    · simp [hi, Nat.testBit_div_two_pow]
      omega
    · have hzero : x.testBit i = false :=
        Nat.testBit_lt_two_pow (lt_of_lt_of_le hx (Nat.pow_le_pow_right (by decide) (by omega)))
      simp [hi, hzero, Nat.testBit_div_two_pow]
  · simp [hi]

/-! ## Lists of bytes -/

/-- The first `n` bytes. -/
def toList (m : Bytes) (n : Nat) : List UInt8 := (List.range n).map m

@[simp] theorem length_toList (m : Bytes) (n : Nat) : (m.toList n).length = n := by simp [toList]

theorem getElem?_toList (m : Bytes) {n i : Nat} (h : i < n) : (m.toList n)[i]? = some (m i) := by
  simp [toList, h]

end Bytes
