import Cyanurus.Mem.BuddyRun

/-!
# Pages and addresses

`src/kernel/page.c`: the memory of the pool starts at `PAGE_START`, and an address
inside it leads back to its page and to the head of the block the page belongs to.
The head is found by scanning down for `PF_FIRST_PAGE`, so what the scan needs is
that no page inside a block carries that flag, after any calls of the allocator.
-/

namespace Cyanurus

/-- `PAGE_START` -/
def pageStart : Nat := 0x65000000

/-- The difference of two `char` pointers: a signed 32-bit number. -/
def ptrDiff (p q : Nat) : Int := ((p : Int) - q).bmod (2 ^ 32)

theorem ptrDiff_eq {p q : Nat} (h : q ≤ p) (h' : p - q < 2 ^ 31) : ptrDiff p q = (p - q : Nat) := by
  unfold ptrDiff
  rw [show ((p : Int) - q) = ((p - q : Nat) : Int) by omega]
  exact Int.bmod_eq_of_le (by omega) (by omega)

/-- The index of the element at `p` in an array at `q` whose elements take `size` bytes. -/
def ptrIndex (p q size : Nat) : Nat := ((ptrDiff p q).tdiv size % 2 ^ 32).toNat

theorem ptrIndex_eq {p q size : Nat} (h : q ≤ p) (h' : p - q < 2 ^ 31) :
    ptrIndex p q size = (p - q) / size := by
  unfold ptrIndex
  have hlt : (p - q) / size < 2 ^ 32 := by
    have := Nat.div_le_self (p - q) size
    omega
  rw [ptrDiff_eq h h', ← Int.ofNat_tdiv,
    Int.emod_eq_of_lt (Int.natCast_nonneg _) (by exact_mod_cast hlt)]
  exact Int.toNat_natCast _

/-- `page_address` -/
def pageAddress (page : Nat) : Nat := pageStart + pageSize * page

/-- `page_find_by_address` -/
def pageFindByAddress (address : Nat) : Option Nat :=
  let index := ptrIndex address pageStart pageSize
  if index < pageNum then some index else none

/-- The loop of `page_find_head`, whose index wraps below zero to a number past the table. -/
def scanHead (b : Buddy) : Nat → Option Nat
  | 0 => if (b.pages 0).firstPage then some 0 else none
  | i + 1 => if (b.pages (i + 1)).firstPage then some (i + 1) else scanHead b i

/-- `page_find_head` -/
def pageFindHead (b : Buddy) (page : Nat) : Option Nat :=
  if page < pageNum then scanHead b page else none

/-- The loop of `page_find_head` on its 32-bit index, cut off after `fuel` tests. -/
def headLoop (b : Buddy) : Nat → Nat → Option (Option Nat)
  | 0, _ => none
  | fuel + 1, index =>
    if index < pageNum then
      if (b.pages index).firstPage then some (some index)
      else headLoop b fuel ((index + 2 ^ 32 - 1) % 2 ^ 32)
    else some none

theorem headLoop_scan {b : Buddy} {i fuel : Nat} (hi : i < pageNum) (hf : i + 1 < fuel) :
    headLoop b fuel i = some (scanHead b i) := by
  induction i generalizing fuel with
  | zero =>
    -- below page 0 the index is the largest number, and the loop stops there
    obtain ⟨fuel, rfl⟩ := Nat.exists_eq_add_of_le' hf
    simp [headLoop, scanHead, pageNum, apply_ite some]
  | succ i ih =>
    obtain ⟨fuel, rfl⟩ := Nat.exists_eq_add_one_of_ne_zero (Nat.ne_zero_of_lt hf)
    have hdown : (i + 1 + 2 ^ 32 - 1) % 2 ^ 32 = i := by unfold pageNum at hi; omega
    rw [headLoop, if_pos hi, hdown, ih (by omega) (Nat.lt_of_succ_lt_succ hf), scanHead, apply_ite some]

/-- The loop is over after at most one test for each page of the table and one more. -/
theorem headLoop_eq (b : Buddy) (i : Nat) : headLoop b (pageNum + 1) i = some (pageFindHead b i) := by
  unfold pageFindHead
  by_cases hi : i < pageNum
  · rw [if_pos hi, headLoop_scan hi (by omega)]
  · rw [if_neg hi, headLoop, if_neg hi]

/-- The scan stops at the first flagged page below. -/
theorem scanHead_eq {b : Buddy} {h : Nat} (hh : (b.pages h).firstPage = true) :
    ∀ {i : Nat}, h ≤ i → (∀ j, h < j → j ≤ i → (b.pages j).firstPage = false) →
      scanHead b i = some h
  | 0, hi, _ => by
    obtain rfl : h = 0 := by omega
    rw [scanHead, if_pos hh]
  | i + 1, hi, hno => by
    rw [scanHead]
    by_cases he : h = i + 1
    · subst he; rw [if_pos hh]
    · rw [hno (i + 1) (by omega) (Nat.le_refl _)]
      exact scanHead_eq hh (by omega) fun j h1 h2 => hno j h1 (by omega)

/-- **Every page of an allocated block leads to the head of that block.** -/
theorem pageFindHead_eq {b : Buddy} {ord : Nat → Option Nat} {free : Nat → Prop} {h i : Nat}
    (w : Buddy.Wf b ord free none) (hh : (b.pages h).firstPage = true) (h1 : h ≤ i)
    (h2 : i < h + 2 ^ (b.pages h).order) : pageFindHead b i = some h := by
  obtain ⟨⟨k, hk⟩, _, _⟩ := w.firstFlag.mp hh
  rw [w.order hk (by simp)] at h2
  have hin := w.tiling.inside hk
  unfold pageFindHead
  rw [if_pos (by omega)]
  refine scanHead_eq hh h1 fun j hj hj' => ?_
  cases hf : (b.pages j).firstPage with
  | false => rfl
  | true =>
    obtain ⟨⟨k', hk'⟩, _, _⟩ := w.firstFlag.mp hf
    have hne := w.tiling.none_inside hk hj (by omega)
    rw [hne] at hk'
    cases hk'

/-- **After any run of the allocator, every page of a block that is out leads to the block's
first page**; exactly those first pages are flagged, and the scan ends from every index. -/
theorem page_head_found {as : List Buddy.Act} {s : Buddy.Pool}
    (hr : Lts.Run Buddy.Step ⟨buddyInit, []⟩ as s) :
    (∀ h n i, (h, n) ∈ s.used → h ≤ i → i < h + 2 ^ (s.buddy.pages h).order →
      pageFindHead s.buddy i = some h) ∧
    (∀ h, (s.buddy.pages h).firstPage = true ↔ ∃ n, (h, n) ∈ s.used) ∧
    ∀ i, headLoop s.buddy (pageNum + 1) i = some (pageFindHead s.buddy i) := by
  have hi := hr.invariant Buddy.inv_init fun _ _ _ hi h => Buddy.inv_step hi h
  obtain ⟨ord, free, w⟩ := hi.wf
  exact ⟨fun h n i hu h1 h2 => pageFindHead_eq w ((hi.used h).mpr ⟨n, hu⟩) h1 h2, hi.used,
    headLoop_eq s.buddy⟩

/-- The second page of a block taken for 5000 bytes. -/
theorem page_head_found_second : ∃ s p, Lts.Run Buddy.Step ⟨buddyInit, []⟩ [.alloc 5000] s ∧
    (p, 5000) ∈ s.used ∧ pageFindHead s.buddy (p + 1) = some p := by
  have hok : (buddyAlloc buddyInit 5000).isOk = true := by decide
  cases ha : buddyAlloc buddyInit 5000 with
  | error e => rw [ha] at hok; exact absurd hok (by simp [Except.isOk, Except.toBool])
  | ok r =>
    have hr : Lts.Run Buddy.Step ⟨buddyInit, []⟩ [.alloc 5000] ⟨r.2, [(r.1, 5000)]⟩ :=
      Lts.Run.nil.snoc (Buddy.Step.alloc (by decide) ha)
    have hu : (r.1, 5000) ∈ [(r.1, 5000)] := List.mem_singleton.mpr rfl
    have hfit := (hr.invariant Buddy.inv_init fun _ _ _ hi h => Buddy.inv_step hi h).fits _ _ hu
    refine ⟨_, r.1, hr, hu, (page_head_found hr).1 _ _ _ hu (Nat.le_succ _) ?_⟩
    -- one page is too small for the request
    cases ho : (r.2.pages r.1).order with
    | zero => rw [ho] at hfit; exact absurd hfit (by decide)
    | succ k =>
      have := Nat.one_lt_two_pow (Nat.succ_ne_zero k)
      omega

theorem pageFindByAddress_eq {a p : Nat} (h1 : pageAddress p ≤ a)
    (h2 : a < pageAddress p + pageSize) (hp : p < pageNum) : pageFindByAddress a = some p := by
  unfold pageAddress pageSize pageStart pageNum at *
  have hi : ptrIndex a pageStart pageSize = p := by
    rw [ptrIndex_eq (by unfold pageStart; omega) (by unfold pageStart; omega)]
    unfold pageStart pageSize
    omega
  unfold pageFindByAddress
  simp only [hi]
  exact if_pos hp

end Cyanurus
