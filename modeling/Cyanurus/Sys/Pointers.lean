import Cyanurus.Sys.UserAccess

/-!
# The checks of user pointers

`check_address_range`, `check_string` and `check_avep` are meant to accept what lies in user
memory and nothing else. The scans are modelled with the addresses that they read.

`check_string` is exact. The other two are not, at the end of the range:
`check_address_range` wants the address behind the buffer to be a user address too, and so
refuses a buffer that ends where the stack does; `check_avep` looks at the first byte of each
pointer only, and reads on in kernel memory if the array is not aligned and gets that far.
**`pointer_checks`** says exactly when the checks are right.
-/

namespace Cyanurus

/-! ## The scans -/

/-- The result of a scan, with the addresses that were read. -/
structure Check where
  ok : Bool
  reads : List Nat
deriving DecidableEq

def Check.after (reads : List Nat) (s : Check) : Check := { s with reads := reads ++ s.reads }

variable {a avep : Nat} {m : Bytes}

theorem lt_of_isUserAddress (h : isUserAddress a = true) : a < userAddressEnd := by
  simp only [isUserAddress, Bool.and_eq_true, decide_eq_true_eq] at h
  exact h.2

def checkString (m : Bytes) (s : Nat) : Check :=
  if isUserAddress s = true then
    if m s = 0 then ⟨true, [s]⟩ else (checkString m (s + 1)).after [s]
  else ⟨false, []⟩
termination_by userAddressEnd - s
decreasing_by
  have := lt_of_isUserAddress ‹_›
  omega

/-- The loop of `check_avep`; the pointer at `avep` is read with its four bytes. -/
def checkAvepLoop (m : Bytes) (avep : Nat) : Check :=
  if isUserAddress avep = true then
    let reads := [avep, avep + 1, avep + 2, avep + 3]
    if m.load 4 avep = 0 then ⟨true, reads⟩
    else
      let string := checkString m (m.load 4 avep)
      if string.ok = false then ⟨false, reads ++ string.reads⟩
      else (checkAvepLoop m (avep + 4)).after (reads ++ string.reads)
  else ⟨false, []⟩
termination_by userAddressEnd - avep
decreasing_by
  have := lt_of_isUserAddress ‹_›
  omega

def checkAvep (m : Bytes) (avep : Nat) : Check :=
  if avep = 0 then ⟨true, []⟩ else checkAvepLoop m avep

/-! ## What they are to check -/

/-- All of the `n` bytes at `a` are user memory. -/
def AllUser (a n : Nat) : Prop := ∀ x, a ≤ x → x < a + n → isUserAddress x = true

/-- Some items to go on at, and then one to stop at. -/
def Ends (go stop : Nat → Prop) : Prop := ∃ n, (∀ i, i < n → go i) ∧ stop n

/-- A zero-terminated string in user memory. -/
def StringInUser (m : Bytes) (s : Nat) : Prop :=
  Ends (fun i => isUserAddress (s + i) = true ∧ m (s + i) ≠ 0)
    (fun i => isUserAddress (s + i) = true ∧ m (s + i) = 0)

/-- A null-terminated array of pointers in user memory, to strings in user memory. -/
def ArrayInUser (m : Bytes) (avep : Nat) : Prop :=
  Ends (fun i => AllUser (avep + 4 * i) 4 ∧ m.load 4 (avep + 4 * i) ≠ 0
      ∧ StringInUser m (m.load 4 (avep + 4 * i)))
    (fun i => AllUser (avep + 4 * i) 4 ∧ m.load 4 (avep + 4 * i) = 0)

/-- The scan reads user memory only, and accepts exactly what `good` says. -/
def Check.Exact (s : Check) (good : Prop) : Prop :=
  (s.ok = true ↔ good) ∧ ∀ x ∈ s.reads, isUserAddress x = true

/-- The array goes on, without a null pointer or a bad string, up to a pointer that is only
partly in the user range. -/
def RunsOver (m : Bytes) (avep : Nat) : Prop :=
  Ends (fun i => AllUser (avep + 4 * i) 4 ∧ m.load 4 (avep + 4 * i) ≠ 0
      ∧ StringInUser m (m.load 4 (avep + 4 * i)))
    (fun i => isUserAddress (avep + 4 * i) = true ∧ userAddressEnd < avep + 4 * i + 4)

/-- A scan decides at the first item, or goes on. -/
theorem ends_split {go stop go' stop' : Nat → Prop} (hgo : ∀ i, go (i + 1) ↔ go' i)
    (hstop : ∀ i, stop (i + 1) ↔ stop' i) : Ends go stop ↔ stop 0 ∨ go 0 ∧ Ends go' stop' := by
  constructor
  · rintro ⟨n, hall, hlast⟩
    cases n with
    | zero => exact .inl hlast
    | succ n =>
      exact .inr ⟨hall 0 (by omega), n, fun i hi => (hgo i).mp (hall (i + 1) (by omega)),
        (hstop n).mp hlast⟩
  · rintro (hlast | ⟨h0, n, hall, hlast⟩)
    · exact ⟨0, fun i hi => absurd hi (by omega), hlast⟩
    · refine ⟨n + 1, fun i hi => ?_, (hstop n).mpr hlast⟩
      cases i with
      | zero => exact h0
      | succ i => exact (hgo i).mpr (hall i (by omega))

theorem byte_shift (s i : Nat) : s + (i + 1) = s + 1 + i := by omega

theorem entry_shift (a i : Nat) : a + 4 * (i + 1) = a + 4 + 4 * i := by omega

theorem stringInUser_iff {s : Nat} : StringInUser m s ↔
    isUserAddress s = true ∧ (m s = 0 ∨ m s ≠ 0 ∧ StringInUser m (s + 1)) := by
  have hsplit : StringInUser m s ↔ _ :=
    ends_split (fun i => by rw [byte_shift]) (fun i => by rw [byte_shift])
  rw [hsplit]
  tauto

theorem arrayInUser_iff : ArrayInUser m avep ↔
    AllUser avep 4 ∧ (m.load 4 avep = 0 ∨ m.load 4 avep ≠ 0 ∧ StringInUser m (m.load 4 avep)
      ∧ ArrayInUser m (avep + 4)) := by
  have hsplit : ArrayInUser m avep ↔ _ :=
    ends_split (fun i => by rw [entry_shift]) (fun i => by rw [entry_shift])
  rw [hsplit]
  tauto

theorem runsOver_iff : RunsOver m avep ↔
    isUserAddress avep = true ∧ userAddressEnd < avep + 4
      ∨ AllUser avep 4 ∧ m.load 4 avep ≠ 0 ∧ StringInUser m (m.load 4 avep)
        ∧ RunsOver m (avep + 4) := by
  have hsplit : RunsOver m avep ↔ _ :=
    ends_split (fun i => by rw [entry_shift]) (fun i => by rw [entry_shift])
  rw [hsplit]
  tauto

/-! ## The scans are exact -/

theorem checkString_exact (m : Bytes) (s : Nat) : (checkString m s).Exact (StringInUser m s) := by
  fun_induction checkString m s with
  | case1 s huser hzero =>
    refine ⟨?_, by simp [huser]⟩
    rw [stringInUser_iff]
    simp [huser, hzero]
  | case2 s huser hzero ih =>
    refine ⟨?_, ?_⟩
    · rw [stringInUser_iff]
      simp only [Check.after, ih.1, huser, hzero, true_and, false_or, ne_eq, not_false_eq_true]
    · simpa [Check.after, huser] using ih.2
  | case3 s huser =>
    refine ⟨?_, by simp⟩
    rw [stringInUser_iff]
    simp [huser]

theorem allUser_iff {n : Nat} (hn : 1 ≤ n) :
    AllUser a n ↔ userAddressStart ≤ a ∧ a + n ≤ userAddressEnd := by
  simp only [AllUser, isUserAddress, Bool.and_eq_true, decide_eq_true_eq]
  constructor
  · intro h
    have h1 := h a (Nat.le_refl a) (by omega)
    have h2 := h (a + n - 1) (by omega) (by omega)
    omega
  · intro h x hx hx'
    omega

/-- Only a pointer across the end of the range is read from outside of it. -/
theorem entry_reads (huser : isUserAddress avep = true) :
    (∀ x ∈ [avep, avep + 1, avep + 2, avep + 3], isUserAddress x = true) ↔ AllUser avep 4 := by
  simp only [List.forall_mem_cons, List.not_mem_nil, false_implies, implies_true, and_true]
  rw [allUser_iff (by omega)]
  simp only [isUserAddress, Bool.and_eq_true, decide_eq_true_eq] at *
  omega

theorem not_allUser (huser : isUserAddress avep = true) :
    ¬ AllUser avep 4 ↔ userAddressEnd < avep + 4 := by
  rw [allUser_iff (by omega)]
  simp only [isUserAddress, Bool.and_eq_true, decide_eq_true_eq] at huser
  omega

/-- A pointer array is checked exactly unless it runs over the end of the range, and then
kernel memory is read. -/
theorem checkAvepLoop_exact (m : Bytes) (avep : Nat) :
    (checkAvepLoop m avep).Exact (ArrayInUser m avep) ↔ ¬ RunsOver m avep := by
  fun_induction checkAvepLoop m avep with
  | case1 avep huser reads hzero =>
    rw [runsOver_iff, arrayInUser_iff]
    simp only [Check.Exact, hzero, reads, entry_reads huser, huser, ← not_allUser huser]
    simp
  | case2 avep huser reads hzero string hbad =>
    have hstring : ¬ StringInUser m (m.load 4 avep) := fun h => by
      simp [string, (checkString_exact m (m.load 4 avep)).1.mpr h] at hbad
    have hreads := iff_true_intro (checkString_exact m (m.load 4 avep)).2
    rw [runsOver_iff, arrayInUser_iff]
    simp only [Check.Exact, List.forall_mem_append, reads, entry_reads huser, huser,
      ← not_allUser huser, string, hreads]
    simp [hstring, hzero]
  | case3 avep huser reads hzero string hgood ih =>
    have hstring : StringInUser m (m.load 4 avep) :=
      (checkString_exact m (m.load 4 avep)).1.mp (by simpa [string] using hgood)
    have hreads := iff_true_intro (checkString_exact m (m.load 4 avep)).2
    rw [runsOver_iff, arrayInUser_iff]
    simp only [Check.Exact, Check.after, List.forall_mem_append, reads, entry_reads huser, huser,
      ← not_allUser huser, string, hreads] at ih ⊢
    -- an entry across the end is read all the same; inside, the rest decides
    by_cases hall : AllUser avep 4
    · simpa [hall, hstring, hzero] using ih
    · simp [hall]
  | case4 avep huser =>
    have hno : ¬ AllUser avep 4 := fun h => huser (h avep (Nat.le_refl _) (by omega))
    rw [runsOver_iff, arrayInUser_iff]
    simp [Check.Exact, huser, hno]

/-- **The checks accept user memory.** `check_address_range` is right exactly unless the
buffer ends at the end of the user range, `check_string` always is, and `check_avep` is right
exactly unless the array runs over the end. A null list is accepted unread. -/
theorem pointer_checks (m : Bytes) (p s string avep : Nat) (hs : 1 ≤ s) :
    ((checkAddressRange p s = true ↔ AllUser p s)
      ↔ ¬ (userAddressStart ≤ p ∧ p + s = userAddressEnd))
    ∧ (checkString m string).Exact (StringInUser m string)
    ∧ (avep ≠ 0 → ((checkAvep m avep).Exact (ArrayInUser m avep) ↔ ¬ RunsOver m avep))
    ∧ checkAvep m 0 = ⟨true, []⟩ := by
  refine ⟨?_, checkString_exact m string, fun h => ?_, rfl⟩
  · rw [checkAddressRange_iff, allUser_iff hs]
    omega
  · unfold checkAvep
    rw [if_neg h]
    exact checkAvepLoop_exact m avep

/-- A buffer and an array in the middle of the range. -/
theorem pointer_checks_inside : 1 ≤ 16 ∧ checkAddressRange 0x20000 16 = true
    ∧ AllUser 0x20000 16 ∧ (checkAvep (fun _ => 0) 0x20001).Exact (ArrayInUser (fun _ => 0) 0x20001) := by
  have h := pointer_checks (fun _ => 0) 0x20000 16 0x20000 0x20001 (by decide)
  have hrange : checkAddressRange 0x20000 16 = true := by decide
  refine ⟨by decide, hrange, (h.1.mpr (by decide)).mp hrange, (h.2.2.1 (by decide)).mpr ?_⟩
  rw [runsOver_iff]
  simp [Bytes.load_zero, userAddressEnd]

/-- The last 16 bytes of the stack are refused. -/
theorem stack_end_refused : ¬ ∀ (m : Bytes) (p s string avep : Nat), p < 2 ^ 32 → s < 2 ^ 32 →
    1 ≤ s → avep ≠ 0 → (checkAddressRange p s = true ↔ AllUser p s)
      ∧ (checkString m string).Exact (StringInUser m string)
      ∧ (checkAvep m avep).Exact (ArrayInUser m avep) := by
  intro h
  have hends := (h (fun _ => 0) 0x5ffffff0 16 0x20000 0x20000 (by decide) (by decide) (by decide)
    (by decide)).1
  have hall : AllUser 0x5ffffff0 16 := (allUser_iff (by decide)).mpr (by decide)
  exact absurd (hends.mpr hall) (by decide)

end Cyanurus
