import Cyanurus.Lib.Bytes

/-!
# C string functions

A pointer to characters is the function that gives the byte at each index from it. Every
function comes with the indices that it touches, so that a statement about what it computes
goes with one about what it has to be allowed to read and write.

`Starts s str` says that `s` begins with the bytes of `str` and a zero.
-/

namespace CStr

/-- `while (str[i] && i < maxlen)`: the length, and the indices that are read. The byte at
`maxlen` is read before the index is compared. -/
def strnlenLoop (s : Nat → UInt8) : Nat → Nat → Nat × List Nat
  | 0, i => (i, [i])
  | left + 1, i =>
    if s i = 0 then (i, [i])
    else ((strnlenLoop s left (i + 1)).1, i :: (strnlenLoop s left (i + 1)).2)

def strnlen (s : Nat → UInt8) (maxlen : Nat) : Nat × List Nat := strnlenLoop s maxlen 0

/-- `while ((*dest++ = *src++))`: the indices that are touched in `fuel` rounds, and whether
the zero was among them. -/
def strcpyLoop (src : Nat → UInt8) : Nat → Nat → Bool × List Nat
  | 0, _ => (false, [])
  | fuel + 1, i =>
    if src i = 0 then (true, [i])
    else ((strcpyLoop src fuel (i + 1)).1, i :: (strcpyLoop src fuel (i + 1)).2)

/-- The indices of `src` that `strncpy` reads. -/
def strncpyReads (src : Nat → UInt8) : Nat → Nat → List Nat
  | 0, _ => []
  | left + 1, i => if src i = 0 then [i] else i :: strncpyReads src left (i + 1)

/-- The destination of `strncpy`, of which all of the first `size` bytes are written. -/
def strncpy (dest src : Nat → UInt8) (size : Nat) : Nat → UInt8 := fun i =>
  if i < size then if (List.range i).all fun j => src j != 0 then src i else 0 else dest i

/-- `strncmp` from index `i` on: whether the strings are equal, and the indices that are read
in both. -/
def strncmpLoop (s t : Nat → UInt8) : Nat → Nat → Bool × List Nat
  | 0, _ => (true, [])
  | left + 1, i =>
    if s i = 0 ∧ t i = 0 then (true, [i])
    else if s i ≠ t i then (false, [i])
    else ((strncmpLoop s t left (i + 1)).1, i :: (strncmpLoop s t left (i + 1)).2)

def strncmp (s t : Nat → UInt8) (size : Nat) : Bool × List Nat := strncmpLoop s t size 0

/-! ## Strings -/

/-- The bytes of the string, from index 0 on. -/
def Begins (s : Nat → UInt8) (str : List UInt8) : Prop := ∀ i c, str[i]? = some c → s i = c

/-- The string and the zero behind it. -/
structure Starts (s : Nat → UInt8) (str : List UInt8) : Prop where
  begins : Begins s str
  zero : s str.length = 0

/-- A string has no zero of its own. -/
def Proper (str : List UInt8) : Prop := ∀ c ∈ str, c ≠ 0

variable {s t : Nat → UInt8} {str : List UInt8}

theorem Begins.ne_zero (h : Begins s str) (hp : Proper str) {i : Nat} (hi : i < str.length) :
    s i ≠ 0 := by
  have hget := List.getElem?_eq_getElem hi
  rw [h i _ hget]
  exact hp _ (List.getElem_mem hi)

/-! ## What is touched -/

theorem strncpyReads_lt : ∀ {left i n : Nat}, n ∈ strncpyReads s left i → n < i + left
  | 0, _, _, h => absurd h (by simp [strncpyReads])
  | left + 1, i, n, h => by
    unfold strncpyReads at h
    split at h
    · rw [List.mem_singleton.mp h]
      omega
    · rcases List.mem_cons.mp h with rfl | h
      · omega
      · have := strncpyReads_lt h
        omega

theorem strncmpLoop_lt : ∀ {left i n : Nat}, n ∈ (strncmpLoop s t left i).2 → n < i + left
  | 0, _, _, h => absurd h (by simp [strncmpLoop])
  | left + 1, i, n, h => by
    unfold strncmpLoop at h
    split at h
    · rw [List.mem_singleton.mp h]
      omega
    split at h
    · rw [List.mem_singleton.mp h]
      omega
    · rcases List.mem_cons.mp h with rfl | h
      · omega
      · have := strncmpLoop_lt h
        omega

/-- A string is counted up to its zero, if that is not behind the limit. -/
theorem strnlenLoop_starts (hs : Starts s str) (hp : Proper str) : ∀ (left i : Nat), i ≤ str.length →
    str.length ≤ i + left → (strnlenLoop s left i).1 = str.length
      ∧ ∀ n ∈ (strnlenLoop s left i).2, n ≤ str.length
  | 0, i, h1, h2 => by
    have : i = str.length := by omega
    simp [strnlenLoop, this]
  | left + 1, i, h1, h2 => by
    rcases Nat.eq_or_lt_of_le h1 with rfl | hlt
    · simp [strnlenLoop, hs.zero]
    · have hne := hs.begins.ne_zero hp hlt
      obtain ⟨hn, hreads⟩ := strnlenLoop_starts hs hp left (i + 1) (by omega) (by omega)
      simp only [strnlenLoop, if_neg hne, List.forall_mem_cons]
      exact ⟨hn, h1, hreads⟩

/-- And `strcpy` copies it. -/
theorem strcpyLoop_touches : ∀ {fuel i n : Nat}, (∀ j, j < n → s j ≠ 0) → i ≤ n → n < i + fuel →
    n ∈ (strcpyLoop s fuel i).2
  | 0, i, n, _, h1, h2 => absurd h2 (by omega)
  | fuel + 1, i, n, hs, h1, h2 => by
    rcases Nat.eq_or_lt_of_le h1 with rfl | hlt
    · unfold strcpyLoop
      split <;> simp
    · simp only [strcpyLoop, if_neg (hs i hlt)]
      exact List.mem_cons_of_mem _ (strcpyLoop_touches hs (by omega) (by omega))

/-- `strcpy` touches the string and its zero. -/
theorem strcpyLoop_starts (hs : Starts s str) (hp : Proper str) : ∀ (fuel i : Nat), i ≤ str.length →
    str.length < i + fuel → (strcpyLoop s fuel i).1 = true
      ∧ ∀ n ∈ (strcpyLoop s fuel i).2, n ≤ str.length
  | 0, i, h1, h2 => absurd h2 (by omega)
  | fuel + 1, i, h1, h2 => by
    rcases Nat.eq_or_lt_of_le h1 with rfl | hlt
    · simp [strcpyLoop, hs.zero]
    · have hne := hs.begins.ne_zero hp hlt
      obtain ⟨hdone, htouched⟩ := strcpyLoop_starts hs hp fuel (i + 1) (by omega) (by omega)
      simp only [strcpyLoop, if_neg hne, List.forall_mem_cons]
      exact ⟨hdone, h1, htouched⟩

/-- The copy of a string, cut at `size` or filled up with zeros. -/
theorem strncpy_starts (dest : Nat → UInt8) (hs : Starts s str) (hp : Proper str) {size i : Nat}
    (hi : i < size) : strncpy dest s size i = (str[i]?).getD 0 := by
  unfold strncpy
  rw [if_pos hi]
  rcases Nat.lt_or_ge i str.length with hlt | hge
  · have hall : ((List.range i).all fun j => s j != 0) = true := by
      rw [List.all_eq_true]
      intro j hj
      have := hs.begins.ne_zero hp (Nat.lt_trans (List.mem_range.mp hj) hlt)
      simpa using this
    have hget := List.getElem?_eq_getElem hlt
    rw [if_pos hall, hget, hs.begins i _ hget]
    rfl
  · rw [List.getElem?_eq_none hge]
    split
    · rename_i hall
      rcases Nat.eq_or_lt_of_le hge with rfl | hgt
      · exact hs.zero
      · have hzero := List.all_eq_true.mp hall str.length (List.mem_range.mpr hgt)
        exact absurd hs.zero (by simpa using hzero)
    · rfl

/-! ## Comparing -/

/-- Two strings are equal up to the limit if they do not differ before the first is over. -/
theorem strncmpLoop_iff : ∀ {left i : Nat}, (strncmpLoop s t left i).1 = true ↔
    ∀ j, i ≤ j → j < i + left → (∀ k, i ≤ k → k < j → s k ≠ 0) → s j = t j
  | 0, i => by
    simp only [strncmpLoop, true_iff]
    intro j h1 h2
    omega
  | left + 1, i => by
    unfold strncmpLoop
    split
    · rename_i hzero
      simp only [true_iff]
      intro j h1 h2 hne
      rcases Nat.eq_or_lt_of_le h1 with rfl | hlt
      · rw [hzero.1, hzero.2]
      · exact absurd hzero.1 (hne i (Nat.le_refl i) hlt)
    split
    · rename_i hdiff
      simp only [Bool.false_eq_true, false_iff]
      intro h
      exact hdiff (h i (Nat.le_refl i) (by omega) fun k h1 h2 => absurd h1 (by omega))
    · rename_i hboth hsame
      have hsame : s i = t i := by simpa using hsame
      have hne : s i ≠ 0 := fun h0 => hboth ⟨h0, hsame ▸ h0⟩
      rw [strncmpLoop_iff]
      constructor
      · intro h j h1 h2 h3
        rcases Nat.eq_or_lt_of_le h1 with rfl | hlt
        · exact hsame
        · exact h j hlt (by omega) fun k h4 h5 => h3 k (by omega) h5
      · intro h j h1 h2 h3
        refine h j (by omega) (by omega) fun k h4 h5 => ?_
        rcases Nat.eq_or_lt_of_le h4 with rfl | hlt
        · exact hne
        · exact h3 k hlt h5

/-- The bytes of a string in a field of `size` bytes, which is filled up with zeros. -/
def InField (s : Nat → UInt8) (str : List UInt8) (size : Nat) : Prop :=
  ∀ i, i < size → s i = (str[i]?).getD 0

/-- The bytes of a string, and the zero behind it unless it takes up all of `size`. -/
def Holds (s : Nat → UInt8) (str : List UInt8) (size : Nat) : Prop :=
  ∀ i, i < size → i ≤ str.length → s i = (str[i]?).getD 0

theorem InField.holds {size : Nat} (h : InField s str size) : Holds s str size :=
  fun i hi _ => h i hi

theorem Starts.holds (h : Starts s str) (size : Nat) : Holds s str size := by
  intro i _ hi
  rcases Nat.eq_or_lt_of_le hi with rfl | hlt
  · rw [h.zero, List.getElem?_eq_none (Nat.le_refl _)]
    rfl
  · have hget := List.getElem?_eq_getElem hlt
    rw [h.begins i _ hget, hget]
    rfl

/-- **Strings are compared as a whole**, be it that they end with a zero or with their field. -/
theorem strncmp_holds {size : Nat} {str' : List UInt8} (hs : Holds s str size)
    (ht : Holds t str' size) (hp : Proper str) (hp' : Proper str') (hlen : str.length ≤ size)
    (hlen' : str'.length ≤ size) : (strncmp s t size).1 = true ↔ str = str' := by
  unfold strncmp
  rw [strncmpLoop_iff]
  constructor
  · intro h
    -- no byte differs while the first string goes on, and where it ends the other does too
    have hbyte : ∀ j, j < size → j ≤ str.length → j ≤ str'.length →
        (str[j]?).getD 0 = (str'[j]?).getD 0 := by
      intro j hj hle hle'
      rw [← hs j hj hle, ← ht j hj hle']
      refine h j (Nat.zero_le j) (by omega) fun k _ hk => ?_
      rw [hs k (by omega) (by omega), List.getElem?_eq_getElem (by omega)]
      exact hp _ (List.getElem_mem _)
    have hle : str.length ≤ str'.length := by
      rcases Nat.lt_or_ge str'.length str.length with hlt | hge
      · have hb := hbyte str'.length (by omega) (by omega) (Nat.le_refl _)
        rw [List.getElem?_eq_getElem hlt, List.getElem?_eq_none (Nat.le_refl _)] at hb
        exact absurd hb (hp _ (List.getElem_mem hlt))
      · exact hge
    have hge : str'.length ≤ str.length := by
      rcases Nat.lt_or_ge str.length str'.length with hlt | hge
      · have hb := hbyte str.length (by omega) (Nat.le_refl _) (by omega)
        rw [List.getElem?_eq_getElem hlt, List.getElem?_eq_none (Nat.le_refl _)] at hb
        exact absurd hb.symm (hp' _ (List.getElem_mem hlt))
      · exact hge
    refine List.ext_getElem (by omega) fun j h1 h2 => ?_
    have hb := hbyte j (by omega) (by omega) (by omega)
    rw [List.getElem?_eq_getElem h1, List.getElem?_eq_getElem h2] at hb
    exact hb
  · rintro rfl j _ hj hne
    -- behind the zero nothing is compared
    have hle : j ≤ str.length := by
      refine Nat.le_of_not_lt fun hlt => hne str.length (Nat.zero_le _) hlt ?_
      rw [hs str.length (by omega) (Nat.le_refl _), List.getElem?_eq_none (Nat.le_refl _)]
      rfl
    rw [hs j (by omega) hle, ht j (by omega) hle]

end CStr
