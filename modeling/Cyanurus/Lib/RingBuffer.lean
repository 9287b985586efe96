import Mathlib.Logic.Function.Basic
import Mathlib.Algebra.Order.Ring.Nat

/-!
# Ring buffers

A queue in a page of `n` cells: `length` elements from `offset` on, which go on at the start
of the page when they reach its end. Elements are copied in and out in runs that do not
cross the end: `readable` and `writable` are the lengths of the longest such runs.

`contents` is the queue as a list. Taking a run off the front drops it from the list, and
putting a run in the free cells appends it.
-/

structure RingBuffer (α : Type*) where
  page : Nat → α
  offset : Nat
  length : Nat

namespace RingBuffer

variable {α : Type*}

/-- The elements, the oldest first. -/
def contents (n : Nat) (r : RingBuffer α) : List α :=
  (List.range r.length).map fun i => r.page ((r.offset + i) % n)

/-- The first cell behind the elements. -/
def tail (n : Nat) (r : RingBuffer α) : Nat := (r.offset + r.length) % n

/-- The elements up to the end of the page. -/
def readable (n : Nat) (r : RingBuffer α) : Nat :=
  if r.tail n > r.offset then r.tail n - r.offset else n - r.offset

/-- The free cells up to the end of the page. -/
def writable (n : Nat) (r : RingBuffer α) : Nat :=
  if r.tail n < r.offset then r.offset - r.tail n else n - r.tail n

/-- The cells of a run of `k` elements at the front. -/
def front (r : RingBuffer α) (k : Nat) : List α := (List.range k).map fun i => r.page (r.offset + i)

/-- The `k` elements at the front are taken off. -/
def drop (n : Nat) (r : RingBuffer α) (k : Nat) : RingBuffer α :=
  { r with offset := (r.offset + k) % n, length := r.length - k }

/-- The `k` elements that `src` has at `b` are put behind the others. -/
def push (n : Nat) (r : RingBuffer α) (src : Nat → α) (b k : Nat) : RingBuffer α :=
  { r with
    page := fun x => if r.tail n ≤ x ∧ x < r.tail n + k then src (b + (x - r.tail n)) else r.page x
    length := r.length + k }

structure Wf (n : Nat) (r : RingBuffer α) : Prop where
  offset : r.offset < n
  length : r.length ≤ n

variable {n k b : Nat} {r : RingBuffer α} {src : Nat → α}

@[simp] theorem length_contents : (r.contents n).length = r.length := by simp [contents]

/-- Sums wrap round at most once. -/
theorem wrap {a c : Nat} (ha : a < n) (hc : c ≤ n) :
    (a + c) % n = if a + c < n then a + c else a + c - n := by
  split
  · exact Nat.mod_eq_of_lt ‹_›
  · rw [Nat.mod_eq_sub_mod (by omega)]
    exact Nat.mod_eq_of_lt (by omega)

/-! ## Runs -/

theorem Wf.readable (h : r.Wf n) (hr : 0 < r.length) :
    0 < r.readable n ∧ r.readable n ≤ r.length ∧ r.offset + r.readable n ≤ n := by
  have h1 := h.offset
  have h2 := h.length
  unfold RingBuffer.readable tail
  rw [wrap h1 h2]
  split <;> split <;> omega

theorem Wf.writable (h : r.Wf n) (hr : r.length < n) :
    0 < r.writable n ∧ r.length + r.writable n ≤ n ∧ r.tail n + r.writable n ≤ n := by
  have h1 := h.offset
  have h2 := h.length
  unfold RingBuffer.writable tail
  rw [wrap h1 h2]
  split <;> split <;> omega

/-! ## Reading -/

theorem Wf.drop (h : r.Wf n) (k : Nat) : (r.drop n k).Wf n :=
  ⟨Nat.mod_lt _ (Nat.lt_of_le_of_lt (Nat.zero_le _) h.offset), Nat.le_trans (Nat.sub_le ..) h.length⟩

theorem contents_drop (r : RingBuffer α) (n k : Nat) :
    (r.drop n k).contents n = (r.contents n).drop k := by
  apply List.ext_getElem?
  intro i
  unfold contents RingBuffer.drop
  by_cases hi : i < r.length - k
  · simp [List.getElem?_range hi, List.getElem?_range (show k + i < r.length by omega), Nat.add_assoc]
  · simp [show r.length - k ≤ i by omega]

theorem front_eq_take (hk : k ≤ r.length) (hend : r.offset + k ≤ n) :
    r.front k = (r.contents n).take k := by
  apply List.ext_getElem?
  intro i
  unfold front contents
  rw [List.getElem?_take]
  by_cases hi : i < k
  · rw [if_pos hi]
    simp [List.getElem?_range hi, List.getElem?_range (show i < r.length by omega),
      Nat.mod_eq_of_lt (show r.offset + i < n by omega)]
  · simp [show k ≤ i by omega]

/-! ## Writing -/

theorem Wf.push (h : r.Wf n) (hk : r.length + k ≤ n) : (r.push n src b k).Wf n := ⟨h.offset, hk⟩

/-- The cells of the elements are apart from the run behind them. -/
theorem contents_push (h : r.Wf n) (hk : r.length + k ≤ n) (hend : r.tail n + k ≤ n) :
    (r.push n src b k).contents n = r.contents n ++ (List.range k).map fun i => src (b + i) := by
  have h1 := h.offset
  have h2 := h.length
  have htail : r.tail n = if r.offset + r.length < n then r.offset + r.length
      else r.offset + r.length - n := wrap h1 h2
  apply List.ext_getElem?
  intro i
  unfold contents RingBuffer.push
  by_cases hi : i < r.length
  · -- an old element: its cell is not in the run
    have hold : ¬ (r.tail n ≤ (r.offset + i) % n ∧ (r.offset + i) % n < r.tail n + k) := by
      rw [wrap h1 (show i ≤ n by omega), htail]
      split <;> split <;> omega
    rw [List.getElem?_append_left (by simpa using hi)]
    simp [List.getElem?_range hi, List.getElem?_range (show i < r.length + k by omega), hold]
  · rw [List.getElem?_append_right (by simp; omega)]
    by_cases hik : i < r.length + k
    · have hcell : (r.offset + i) % n = r.tail n + (i - r.length) := by
        rw [wrap h1 (show i ≤ n by omega)]
        split at htail <;> split <;> omega
      simp [List.getElem?_range hik, hcell, show i - r.length < k by omega]
    · simp [show r.length + k ≤ i by omega,
        show k ≤ i - r.length by omega]

end RingBuffer
