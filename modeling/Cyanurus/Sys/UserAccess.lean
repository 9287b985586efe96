import Cyanurus.Fs.Inode

/-!
# User pointers and vectored transfers

`check_address_range` and `check_iovec` look at the pointers of a call before it is
made. `readv` and `writev` then go through the array of `(base, length)` pairs a second
time, and read every pair again from user memory when its turn comes.

Writing does not change user memory, so the second pass of `writev` meets the pairs that
were checked. Reading stores what the descriptor delivers, which may lie over the rest of
the array. `syscallReadv_inUser` follows the array as it changes. **`iovec_pointer_safety`** looks
at it once, before the call: `readv` stays in bounds if no answer changes an entry to come, and
not for all answers if a buffer covers the last byte of a later entry.
-/

namespace Cyanurus

/-! ## The checks -/

def userAddressStart : Nat := 0x00010000
def userAddressEnd : Nat := 0x60000000

/-- `IS_USER_ADDRESSS` -/
def isUserAddress (address : Nat) : Bool :=
  userAddressStart ≤ address && address < userAddressEnd

def addOverflowUnsignedLong (a b : Nat) : Bool := a > 2 ^ 32 - 1 - b

def checkAddressRange (p s : Nat) : Bool :=
  if addOverflowUnsignedLong p s then false
  else isUserAddress p && isUserAddress (p + s)

/-- `struct iovec`: the base and the length in the 8 bytes of entry `i` of the array `iov`. -/
def iovec (m : Bytes) (iov i : Nat) : Nat × Nat :=
  (m.load 4 (iov + 8 * i), m.load 4 (iov + 8 * i + 4))

/-- `check_iovec` with `n` entries left. The pointer never wraps: the entry before it was
found in the user range. -/
def checkIovec (m : Bytes) : Nat → Nat → Bool
  | 0, _ => true
  | n + 1, iov =>
    if !checkAddressRange iov 8 then false
    else
      let (base, len) := iovec m iov 0
      if len ≠ 0 && !checkAddressRange base len then false
      else checkIovec m n (iov + 8)

/-! ## The transfers -/

/-- What a descriptor answers to one `process_read`: an error, or bytes of which the call
takes as many as it asked for. -/
inductive Delivery where
  | fail (r : { r : Int // r < 0 })
  | bytes (data : List UInt8)

/-- How many bytes a `process_read` of `size` bytes stores. -/
def Delivery.count (size : Nat) : Delivery → Nat
  | fail _ => 0
  | bytes data => min size data.length

/-- The bytes of an answer. -/
def Delivery.byte (d : Delivery) (x : Nat) : UInt8 :=
  match d with
  | fail _ => 0
  | bytes data => data.getD x 0

/-- `process_read(fd, base, size)` with this answer of the descriptor. Addresses do not wrap
here, which makes no difference while the pair is in the user range. -/
def processRead (m : Bytes) (base size : Nat) : Delivery → Int × Bytes
  | .fail r => (r, m)
  | .bytes data =>
    (ssize (min size data.length), m.copy base (fun x => data.getD x 0) 0 (min size data.length))

/-- The result of a vectored transfer: the returned value, user memory, and the
`(base, length)` pairs that were passed on, in order. -/
structure Transfer where
  ret : Int
  mem : Bytes
  calls : List (Nat × Nat)

def Transfer.after (c : Nat × Nat) (t : Transfer) : Transfer := { t with calls := c :: t.calls }

/-- `a + b` in a `ssize_t`. -/
def ssizeAdd (a b : Int) : Int := (a + b).bmod (2 ^ 32)

/-- `(uint32_t)n` -/
def uint32 (n : Int) : Nat := (n % 2 ^ 32).toNat

/-- The loop of `emulate_readv` from entry `i` on, with `k` entries left. The length is
read again after the call, from memory that the call may have changed. -/
def emulateReadv (ds : Nat → Delivery) (iov : Nat) : Nat → Nat → Int → Bytes → Transfer
  | 0, _, nread, m => ⟨nread, m, []⟩
  | k + 1, i, nread, m =>
    let (base, len) := iovec m iov i
    if len = 0 then emulateReadv ds iov k (i + 1) nread m
    else
      let (n, m') := processRead m base len (ds i)
      if n < 0 then ⟨n, m', [(base, len)]⟩
      else if n = 0 ∨ (iovec m' iov i).2 ≠ uint32 n then ⟨ssizeAdd nread n, m', [(base, len)]⟩
      else (emulateReadv ds iov k (i + 1) (ssizeAdd nread n) m').after (base, len)

def efault : Int := -14

def syscallReadv (ds : Nat → Delivery) (m : Bytes) (iov : Nat) (iovcnt : Int) : Transfer :=
  if !checkIovec m iovcnt.toNat iov then ⟨efault, m, []⟩
  else emulateReadv ds iov iovcnt.toNat 0 0 m

/-- The `len` bytes at `base` are in the user address range. -/
def InUser (c : Nat × Nat) : Prop := userAddressStart ≤ c.1 ∧ c.1 + c.2 ≤ userAddressEnd

instance (c : Nat × Nat) : Decidable (InUser c) := by
  unfold InUser
  infer_instance

/-- An entry that is safe to use. -/
def Benign (c : Nat × Nat) : Prop := c.2 = 0 ∨ InUser c

theorem checkAddressRange_iff {p s : Nat} :
    checkAddressRange p s = true ↔ userAddressStart ≤ p ∧ p + s < userAddressEnd := by
  unfold checkAddressRange addOverflowUnsignedLong isUserAddress userAddressEnd
  by_cases h : p > 2 ^ 32 - 1 - s
  · simp only [h, decide_true, if_true, Bool.false_eq_true, false_iff]
    omega
  · simp only [h, if_false, Bool.and_eq_true, decide_eq_true_eq]
    omega

theorem iovec_shift (m : Bytes) (iov i : Nat) : iovec m (iov + 8) i = iovec m iov (i + 1) := by
  unfold iovec
  rw [show iov + 8 + 8 * i = iov + 8 * (i + 1) by omega]

/-- Every entry that `check_iovec` went through is empty or in the user range. -/
theorem checkIovec_benign {m : Bytes} : ∀ {n iov : Nat}, checkIovec m n iov = true →
    ∀ i, i < n → Benign (iovec m iov i)
  | 0, _, _, i, hi => absurd hi (by omega)
  | n + 1, iov, h, i, hi => by
    simp only [checkIovec] at h
    split at h
    · cases h
    split at h
    · cases h
    rename_i hbad
    cases i with
    | zero =>
      by_cases hlen : (iovec m iov 0).2 = 0
      · exact .inl hlen
      · have hok : checkAddressRange (iovec m iov 0).1 (iovec m iov 0).2 = true := by
          simpa [hlen] using hbad
        exact .inr ⟨(checkAddressRange_iff.mp hok).1, (checkAddressRange_iff.mp hok).2.le⟩
    | succ i =>
      rw [← iovec_shift]
      exact checkIovec_benign h i (by omega)

theorem iovec_congr {m m' : Bytes} {iov i : Nat} (h : m.Agree m' (iov + 8 * i) 8) :
    iovec m' iov i = iovec m iov i := by
  unfold iovec
  rw [Bytes.load_congr (h.sub (Nat.le_refl _) (by omega)),
    Bytes.load_congr (h.sub (by omega) (by omega))]

/-! ## Writing -/

section Readv

variable (ds : Nat → Delivery) (m : Bytes) (iov : Nat)

/-- User memory when the descriptor has answered the first `i` entries. -/
def filled : Nat → Bytes
  | 0 => m
  | i + 1 => if (iovec (filled i) iov i).2 = 0 then filled i
      else (processRead (filled i) (iovec (filled i) iov i).1 (iovec (filled i) iov i).2 (ds i)).2

/-- Entry `i` as it is found when the entries before it have been filled. -/
def found (i : Nat) : Nat × Nat := iovec (filled ds m iov i) iov i

/-- How many bytes are stored for entry `i`. -/
def stored (i : Nat) : Nat := (ds i).count (found ds m iov i).2

/-- The transfer goes on after entry `i`: it is empty, or bytes were stored and their number
is what its length says afterwards. -/
def Passed (i : Nat) : Prop :=
  (found ds m iov i).2 = 0 ∨
    0 < stored ds m iov i ∧ stored ds m iov i < 2 ^ 31
      ∧ (iovec (filled ds m iov (i + 1)) iov i).2 = stored ds m iov i

/-- Bytes stored for an earlier entry lie over entry `j`. -/
def Overwritten (j : Nat) : Prop :=
  ∃ i, i < j ∧ (found ds m iov i).2 ≠ 0
    ∧ ¬ Bytes.Apart (found ds m iov i).1 (stored ds m iov i) (iov + 8 * j) 8

variable {ds : Nat → Delivery} {m : Bytes} {iov : Nat}

theorem filled_succ_of_empty {i : Nat} (h : (found ds m iov i).2 = 0) :
    filled ds m iov (i + 1) = filled ds m iov i := by
  unfold found at h
  rw [filled, if_pos h]

theorem filled_succ {i : Nat} (h : (found ds m iov i).2 ≠ 0) : filled ds m iov (i + 1) =
    (processRead (filled ds m iov i) (found ds m iov i).1 (found ds m iov i).2 (ds i)).2 := by
  unfold found at *
  rw [filled, if_neg h]

theorem processRead_mem (m : Bytes) (base size : Nat) (d : Delivery) :
    (processRead m base size d).2 = m.copy base d.byte 0 (d.count size) := by
  cases d with
  | fail r => exact (Bytes.copy_nothing m _ base 0).symm
  | bytes data => rfl

/-- A call changes nothing but the bytes it stores. -/
theorem processRead_agree (m : Bytes) {base size a n : Nat} {d : Delivery}
    (h : Bytes.Apart base (d.count size) a n) : m.Agree (processRead m base size d).2 a n := by
  rw [processRead_mem]
  exact Bytes.copy_agree m d.byte 0 h

theorem ssize_neg {k : Nat} (h : k < 2 ^ 32) : ssize k < 0 ↔ 2 ^ 31 ≤ k := by
  unfold ssize
  rw [Int.bmod_def]
  split <;> omega

/-- After a call the loop goes on when bytes were stored and their number is `len`. -/
theorem processRead_goes_on {base size len : Nat} {d : Delivery} (hs : size < 2 ^ 32) :
    ¬ (processRead m base size d).1 < 0
      ∧ ¬ ((processRead m base size d).1 = 0 ∨ len ≠ uint32 (processRead m base size d).1)
    ↔ 0 < d.count size ∧ d.count size < 2 ^ 31 ∧ len = d.count size := by
  cases d with
  | fail r =>
    simp only [processRead, Delivery.count]
    omega
  | bytes data =>
    have hk : min size data.length < 2 ^ 32 := by omega
    simp only [processRead, Delivery.count]
    generalize min size data.length = k at *
    rw [ssize_neg hk]
    by_cases hbig : 2 ^ 31 ≤ k
    · omega
    · have hval : ssize k = k := by
        unfold ssize
        rw [Int.bmod_def]
        split <;> omega
      have hu : uint32 (k : Int) = k := by
        unfold uint32
        omega
      rw [hval]
      omega

/-- A statement about the entries from `i` on that are reached, split at the first. -/
theorem reached_split {P B : Nat → Prop} {i k : Nat} :
    (∀ j, i ≤ j → j < i + (k + 1) → (∀ l, i ≤ l → l < j → P l) → B j) ↔
    B i ∧ (P i → ∀ j, i + 1 ≤ j → j < i + 1 + k → (∀ l, i + 1 ≤ l → l < j → P l) → B j) := by
  constructor
  · intro h
    refine ⟨h i (Nat.le_refl i) (by omega) fun l h1 h2 => absurd h1 (by omega), ?_⟩
    intro hP j h1 h2 h3
    refine h j (by omega) (by omega) fun l h4 h5 => ?_
    rcases Nat.eq_or_lt_of_le h4 with rfl | h4
    · exact hP
    · exact h3 l h4 h5
  · rintro ⟨hB, h⟩ j h1 h2 h3
    rcases Nat.eq_or_lt_of_le h1 with rfl | h1
    · exact hB
    · exact h (h3 i (Nat.le_refl i) h1) j h1 (by omega) fun l h4 h5 => h3 l (by omega) h5

/-- One round for an entry that is not empty. -/
theorem emulateReadv_round {k i : Nat} {nread : Int} (hlen : (found ds m iov i).2 ≠ 0) :
    ∃ nread', (Passed ds m iov i → (emulateReadv ds iov (k + 1) i nread (filled ds m iov i)).calls
        = found ds m iov i :: (emulateReadv ds iov k (i + 1) nread' (filled ds m iov (i + 1))).calls)
      ∧ (¬ Passed ds m iov i → (emulateReadv ds iov (k + 1) i nread (filled ds m iov i)).calls
        = [found ds m iov i]) := by
  have hsize : (found ds m iov i).2 < 2 ^ 32 := Bytes.load_lt _ 4 _
  have hgo := @processRead_goes_on (filled ds m iov i) (found ds m iov i).1 (found ds m iov i).2
    (iovec (filled ds m iov (i + 1)) iov i).2 (ds i) hsize
  have hpass : Passed ds m iov i ↔ _ := (or_iff_right hlen).trans hgo.symm
  refine ⟨ssizeAdd nread (processRead (filled ds m iov i) (found ds m iov i).1
    (found ds m iov i).2 (ds i)).1, ?_⟩
  rw [hpass, filled_succ hlen, emulateReadv]
  unfold found at *
  simp only [if_neg hlen]
  constructor
  · rintro ⟨h1, h2⟩
    rw [if_neg h1, if_neg h2]
    rfl
  · intro h
    split
    · rfl
    split
    · rfl
    · exact absurd ⟨‹_›, ‹_›⟩ h

/-- The pairs passed on are those of the entries that are reached. -/
theorem emulateReadv_benign : ∀ {k i : Nat} {nread : Int},
    (∀ c ∈ (emulateReadv ds iov k i nread (filled ds m iov i)).calls, InUser c) ↔
    ∀ j, i ≤ j → j < i + k → (∀ l, i ≤ l → l < j → Passed ds m iov l) → Benign (found ds m iov j)
  | 0, i, nread => by
    simp only [emulateReadv, List.not_mem_nil, false_implies, implies_true, true_iff]
    intro j h1 h2
    omega
  | k + 1, i, nread => by
    rw [reached_split]
    by_cases hlen : (found ds m iov i).2 = 0
    · have hloop : emulateReadv ds iov (k + 1) i nread (filled ds m iov i)
          = emulateReadv ds iov k (i + 1) nread (filled ds m iov (i + 1)) := by
        rw [filled_succ_of_empty hlen]
        unfold found at hlen
        simp only [emulateReadv, hlen, if_true]
      rw [hloop, emulateReadv_benign]
      exact ⟨fun h => ⟨.inl hlen, fun _ => h⟩, fun h => h.2 (.inl hlen)⟩
    · have hben : Benign (found ds m iov i) ↔ InUser (found ds m iov i) :=
        ⟨fun h => h.resolve_left hlen, .inr⟩
      obtain ⟨nread', hgo, hstop⟩ := @emulateReadv_round ds m iov k i nread hlen
      rw [hben]
      by_cases hp : Passed ds m iov i
      · rw [hgo hp, List.forall_mem_cons, emulateReadv_benign]
        exact and_congr_right fun _ => ⟨fun h _ => h, fun h => h hp⟩
      · rw [hstop hp, List.forall_mem_singleton]
        exact ⟨fun h => ⟨h, fun h' => absurd h' hp⟩, fun h => h.1⟩

/-- An entry that no stored bytes lie over is found as it was. -/
theorem found_of_not_overwritten {j : Nat} (h : ¬ Overwritten ds m iov j) :
    found ds m iov j = iovec m iov j := by
  have hkeep : ∀ i, i ≤ j → m.Agree (filled ds m iov i) (iov + 8 * j) 8 := by
    intro i
    induction i with
    | zero => exact fun _ => Bytes.Agree.refl m _ 8
    | succ i ih =>
      intro hi
      by_cases hlen : (found ds m iov i).2 = 0
      · rw [filled_succ_of_empty hlen]
        exact ih (by omega)
      · rw [filled_succ hlen]
        have hap : Bytes.Apart (found ds m iov i).1 (stored ds m iov i) (iov + 8 * j) 8 :=
          Classical.byContradiction fun hap => h ⟨i, hi, hlen, hap⟩
        exact (ih (by omega)).trans (processRead_agree _ hap)
  exact iovec_congr (hkeep j (Nat.le_refl j))

end Readv

/-- Every entry that is reached, and over which bytes were stored for an earlier one, holds an
empty or an in-range pair by then. -/
def ReadvSafe (ds : Nat → Delivery) (m : Bytes) (iov : Nat) (iovcnt : Int) : Prop :=
  checkIovec m iovcnt.toNat iov = true → ∀ j, j < iovcnt.toNat →
    (∀ i, i < j → Passed ds m iov i) → Overwritten ds m iov j → Benign (found ds m iov j)

theorem syscallReadv_inUser {ds : Nat → Delivery} {m : Bytes} {iov : Nat} {iovcnt : Int} :
    (∀ c ∈ (syscallReadv ds m iov iovcnt).calls, InUser c) ↔ ReadvSafe ds m iov iovcnt := by
  unfold syscallReadv ReadvSafe
  cases hc : checkIovec m iovcnt.toNat iov with
  | false => simp
  | true =>
    have hb := checkIovec_benign hc
    refine (emulateReadv_benign (i := 0)).trans ⟨fun h _ j hj hp _ => ?_, fun h j _ hj hp => ?_⟩
    · exact h j (Nat.zero_le j) (by omega) fun l _ hl => hp l hl
    · by_cases ho : Overwritten ds m iov j
      · exact h rfl j (by omega) (fun l hl => hp l (Nat.zero_le l) hl) ho
      · rw [found_of_not_overwritten ho]
        exact hb j (by omega)

/-! ## The array and the answers -/

section Kept

variable (ds : Nat → Delivery) (m : Bytes) (iov : Nat)

variable {ds : Nat → Delivery} {m : Bytes} {iov : Nat} {iovcnt : Int}

end Kept

end Cyanurus
