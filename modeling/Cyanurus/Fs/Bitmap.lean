import Cyanurus.Lib.Bytes

/-!
# Blocks and bitmaps

The disk as the block layer presents it: an array of blocks of 4096 bytes, named by
16-bit numbers. On it, `mark_map` and `unmark_map` of `src/kernel/inode.c`: the
allocation of a bit in a run of blocks.

`bitAt d start i` is bit `i` of the bitmap that starts at block `start`. The scan of
`mark_map` goes byte by byte and skips bytes that are full; what it comes to is the
first clear bit below the limit (`markMap_spec`).
-/

namespace Cyanurus

def blockSize : Nat := 1024 * 4

/-- The blocks of the device. -/
abbrev Disk := Nat → Bytes

/-- `block_read`, whose argument is a 16-bit number. -/
def blockRead (d : Disk) (index : Nat) : Bytes := d (index % 2 ^ 16)

/-- `block_write` -/
def blockWrite (d : Disk) (index : Nat) (data : Bytes) : Disk :=
  Function.update d (index % 2 ^ 16) data

/-! ## The scan -/

/-- What the scan of one byte or one block comes to. -/
inductive Scan where
  /-- Nothing free here; the next index. -/
  | more (index : Nat)
  /-- The limit is reached. -/
  | limit
  /-- Bit `b` of byte `i` is free, and its index is `index`. -/
  | found (i b index : Nat)
deriving DecidableEq, Repr

/-- The loop of `mark_map` over the bits of a byte, from bit `8 - n` on. -/
def scanByte (byte : UInt8) (limit index i : Nat) : Nat → Scan
  | 0 => .more index
  | n + 1 =>
    let b := 8 - (n + 1)
    if index + b ≥ limit then .limit
    -- `~buf[i] & (1 << b)`
    else if byte.toNat.testBit b = false then .found i b (index + b)
    else scanByte byte limit index i n

/-- The loop of `mark_map` over the bytes of a block, from byte `i` on. -/
def scanBlock (buf : Bytes) (limit : Nat) : Nat → Nat → Nat → Scan
  | index, _, 0 => .more index
  | index, i, n + 1 =>
    if buf i = 0xff then scanBlock buf limit (index + 8) (i + 1) n
    else
      match scanByte (buf i) limit index i 8 with
      | .more _ => scanBlock buf limit index (i + 1) n
      | r => r

/-- `buf[i] |= (1 << b)` -/
def setBit (buf : Bytes) (i b : Nat) : Bytes :=
  Function.update buf i (buf i ||| UInt8.ofNat (1 <<< b))

/-- `buf[i] &= ~(1 << b)` -/
def clearBit (buf : Bytes) (i b : Nat) : Bytes :=
  Function.update buf i (buf i &&& ~~~ UInt8.ofNat (1 <<< b))

/-- The loop of `mark_map` over `n` blocks. -/
def markLoop (d : Disk) (limit : Nat) : Nat → Nat → Nat → Nat × Disk
  | _, _, 0 => (0, d)
  | block, index, n + 1 =>
    match scanBlock (blockRead d block) limit index 0 blockSize with
    | .more index => markLoop d limit (block + 1) index n
    | .limit => (0, d)
    | .found i b index => (index, blockWrite d block (setBit (blockRead d block) i b))

/-- `mark_map`: blocks `start` up to `stop` (both 16-bit), bits below `limit`. -/
def markMap (d : Disk) (start stop limit : Nat) : Nat × Disk :=
  markLoop d limit (start % 2 ^ 16) 0 (stop % 2 ^ 16 - start % 2 ^ 16)

/-- `unmark_map` -/
def unmarkMap (d : Disk) (index start : Nat) : Disk :=
  let block := start + index / 8 / blockSize
  blockWrite d block (clearBit (blockRead d block) (index / 8 % blockSize) (index % 8))

/-! ## Bits -/

/-- Bit `i` of the bitmap that starts at block `start`. -/
def bitAt (d : Disk) (start i : Nat) : Bool :=
  (d (start + i / 32768) (i / 8 % 4096)).toNat.testBit (i % 8)

theorem testBit_set (x : UInt8) {b : Nat} (hb : b < 8) (c : Nat) :
    (x ||| UInt8.ofNat (1 <<< b)).toNat.testBit c = (x.toNat.testBit c || decide (c = b)) := by
  have h1 : (UInt8.ofNat (1 <<< b)).toNat = 2 ^ b := by
    rw [Nat.one_shiftLeft]
    exact Nat.mod_eq_of_lt (Nat.pow_lt_pow_right (by omega) hb)
  rw [UInt8.toNat_or, Nat.testBit_or, h1, Nat.testBit_two_pow]
  simp [eq_comm]

theorem testBit_clear (x : UInt8) {b c : Nat} (hb : b < 8) (hc : c < 8) :
    (x &&& ~~~ UInt8.ofNat (1 <<< b)).toNat.testBit c
      = (x.toNat.testBit c && decide (c ≠ b)) := by
  have h1 : (UInt8.ofNat (1 <<< b)).toNat = 2 ^ b := by
    rw [Nat.one_shiftLeft]
    exact Nat.mod_eq_of_lt (Nat.pow_lt_pow_right (by omega) hb)
  have h2 : (~~~ UInt8.ofNat (1 <<< b)).toNat = 2 ^ 8 - (2 ^ b + 1) := by
    rw [UInt8.toNat_not]
    unfold UInt8.size
    omega
  have h3 : 2 ^ b < 2 ^ 8 := Nat.pow_lt_pow_right (by omega) hb
  rw [UInt8.toNat_and, Nat.testBit_and, h2, Nat.testBit_two_pow_sub_succ h3, Nat.testBit_two_pow]
  simp [hc, eq_comm]

theorem eq_of_bits {x y : UInt8} (h : ∀ c, c < 8 → x.toNat.testBit c = y.toNat.testBit c) : x = y :=
  UInt8.toBitVec_inj.mp (BitVec.eq_of_getLsbD_eq h)

theorem testBit_ff : ∀ c, c < 8 → (0xff : UInt8).toNat.testBit c = true := by decide

/-- `buf[i] |= (1 << b)` sets one bit. -/
theorem setBit_testBit (buf : Bytes) {i b : Nat} (hb : b < 8) (j c : Nat) :
    (setBit buf i b j).toNat.testBit c = ((buf j).toNat.testBit c || decide (j = i ∧ c = b)) := by
  unfold setBit
  by_cases hj : j = i
  · subst hj
    rw [Function.update_self, testBit_set _ hb]
    simp
  · simp [hj]

/-- `buf[i] &= ~(1 << b)` clears one bit. -/
theorem clearBit_testBit (buf : Bytes) {i b c : Nat} (hb : b < 8) (hc : c < 8) (j : Nat) :
    (clearBit buf i b j).toNat.testBit c
      = ((buf j).toNat.testBit c && decide (¬ (j = i ∧ c = b))) := by
  unfold clearBit
  by_cases hj : j = i
  · subst hj
    rw [Function.update_self, testBit_clear _ hb hc]
    simp
  · simp [hj]

/-! ## What the scan finds -/

/-- Bits that are set up to `j`, and from `j` on, are set. -/
theorem bits_trans {bit : Nat → Bool} {i j k : Nat} (h : ∀ c, i ≤ c → c < j → bit c = true)
    (h' : ∀ c, j ≤ c → c < k → bit c = true) (c : Nat) (h1 : i ≤ c) (h2 : c < k) : bit c = true := by
  by_cases hc : c < j
  · exact h c h1 hc
  · exact h' c (Nat.le_of_not_lt hc) h2

/-- The bits of a byte: all set, all set up to the limit, or a first clear one. -/
theorem scanByte_spec (byte : UInt8) (limit index i : Nat) : ∀ {n : Nat}, n ≤ 8 →
    (∀ c, c < 8 - n → byte.toNat.testBit c = true) →
    (scanByte byte limit index i n = .more index ∧ ∀ c, c < 8 → byte.toNat.testBit c = true)
    ∨ (scanByte byte limit index i n = .limit ∧
        ∃ t, t < 8 ∧ limit ≤ index + t ∧ ∀ c, c < t → byte.toNat.testBit c = true)
    ∨ ∃ b, scanByte byte limit index i n = .found i b (index + b) ∧ b < 8 ∧ index + b < limit
        ∧ byte.toNat.testBit b = false ∧ ∀ c, c < b → byte.toNat.testBit c = true
  | 0, _, hset => Or.inl ⟨rfl, hset⟩
  | n + 1, hn, hset => by
    rw [scanByte]
    by_cases hl : index + (8 - (n + 1)) ≥ limit
    · rw [if_pos hl]
      exact Or.inr (Or.inl ⟨rfl, 8 - (n + 1), by omega, hl, hset⟩)
    rw [if_neg hl]
    cases hb : byte.toNat.testBit (8 - (n + 1)) with
    | false =>
      exact Or.inr (Or.inr ⟨8 - (n + 1), rfl, by omega, by omega, hb, hset⟩)
    | true =>
      refine scanByte_spec byte limit index i (by omega) fun c hc => ?_
      by_cases he : c = 8 - (n + 1)
      · rw [he]; exact hb
      · exact hset c (by omega)

/-- Bit `c` of a block. -/
def blockBit (buf : Bytes) (c : Nat) : Bool := (buf (c / 8)).toNat.testBit (c % 8)

/-- The bits of a block from byte `i` on; `base` is the index of the block's first bit. -/
theorem scanBlock_spec (buf : Bytes) (limit base : Nat) : ∀ {n i : Nat},
    (scanBlock buf limit (base + 8 * i) i n = .more (base + 8 * (i + n))
        ∧ ∀ c, 8 * i ≤ c → c < 8 * (i + n) → blockBit buf c = true)
    ∨ (scanBlock buf limit (base + 8 * i) i n = .limit ∧
        ∃ t, t ≤ 8 * (i + n) ∧ limit ≤ base + t ∧ ∀ c, 8 * i ≤ c → c < t → blockBit buf c = true)
    ∨ ∃ t, scanBlock buf limit (base + 8 * i) i n = .found (t / 8) (t % 8) (base + t)
        ∧ 8 * i ≤ t ∧ t < 8 * (i + n) ∧ base + t < limit ∧ blockBit buf t = false
        ∧ ∀ c, 8 * i ≤ c → c < t → blockBit buf c = true
  | 0, i => by
    left
    refine ⟨rfl, fun c h1 h2 => ?_⟩
    omega
  | n + 1, i => by
    have hbit : ∀ t, t < 8 → blockBit buf (8 * i + t) = (buf i).toNat.testBit t := by
      intro t ht
      unfold blockBit
      rw [show (8 * i + t) / 8 = i by omega, show (8 * i + t) % 8 = t by omega]
    rw [scanBlock]
    by_cases hff : buf i = 0xff
    · -- a full byte is skipped
      rw [if_pos hff]
      have hall : ∀ c, 8 * i ≤ c → c < 8 * (i + 1) → blockBit buf c = true := by
        intro c h1 h2
        obtain ⟨t, rfl⟩ : ∃ t, c = 8 * i + t := ⟨c - 8 * i, by omega⟩
        rw [hbit t (by omega), hff]
        exact testBit_ff t (by omega)
      have hih := scanBlock_spec buf limit base (n := n) (i := i + 1)
      rw [show base + 8 * (i + 1) = base + 8 * i + 8 by omega,
        show i + 1 + n = i + (n + 1) by omega] at hih
      rcases hih with ⟨hm, hs⟩ | ⟨hl, t, h1, h2, h3⟩ | ⟨t, hf, h1, h2, h3, h4, h5⟩
      · exact Or.inl ⟨hm, bits_trans hall hs⟩
      · exact Or.inr (Or.inl ⟨hl, t, h1, h2, bits_trans hall h3⟩)
      · exact Or.inr (Or.inr ⟨t, hf, by omega, h2, h3, h4, bits_trans hall h5⟩)
    rw [if_neg hff]
    rcases scanByte_spec (buf i) limit (base + 8 * i) i (Nat.le_refl 8) (fun c hc => by omega) with
      ⟨_, hall⟩ | ⟨hl, t, ht, h2, h3⟩ | ⟨b, hf, hb, h2, h3, h4⟩
    · exact absurd (eq_of_bits fun c hc => (hall c hc).trans (testBit_ff c hc).symm) hff
    · rw [hl]
      refine Or.inr (Or.inl ⟨rfl, 8 * i + t, by omega, by omega, fun c h4 h5 => ?_⟩)
      obtain ⟨u, rfl⟩ : ∃ u, c = 8 * i + u := ⟨c - 8 * i, by omega⟩
      rw [hbit u (by omega)]
      exact h3 u (by omega)
    · rw [hf]
      refine Or.inr (Or.inr ⟨8 * i + b, ?_, by omega, by omega, by omega, ?_, fun c h5 h6 => ?_⟩)
      · rw [show (8 * i + b) / 8 = i by omega, show (8 * i + b) % 8 = b by omega,
          show base + (8 * i + b) = base + 8 * i + b by omega]
      · rw [hbit b hb]; exact h3
      · obtain ⟨u, rfl⟩ : ∃ u, c = 8 * i + u := ⟨c - 8 * i, by omega⟩
        rw [hbit u (by omega)]
        exact h4 u (by omega)

/-! ## What `mark_map` and `unmark_map` do -/

/-- The disk with bit `i` of the bitmap at `start` set. -/
def setBitAt (d : Disk) (start i : Nat) : Disk :=
  Function.update d (start + i / 32768) (setBit (d (start + i / 32768)) (i / 8 % 4096) (i % 8))

/-- The disk with bit `i` of the bitmap at `start` clear. -/
def clearBitAt (d : Disk) (start i : Nat) : Disk :=
  Function.update d (start + i / 32768) (clearBit (d (start + i / 32768)) (i / 8 % 4096) (i % 8))

theorem bitAt_setBitAt (d : Disk) (start i j : Nat) :
    bitAt (setBitAt d start i) start j = (bitAt d start j || decide (j = i)) := by
  unfold bitAt setBitAt
  by_cases hb : start + j / 32768 = start + i / 32768
  · rw [hb, Function.update_self, setBit_testBit _ (Nat.mod_lt _ (by omega))]
    congr 1
    exact decide_eq_decide.mpr ⟨fun h => by omega, fun h => by omega⟩
  · rw [Function.update_of_ne hb, show decide (j = i) = false from decide_eq_false (by
      intro he; rw [he] at hb; exact hb rfl), Bool.or_false]

theorem bitAt_clearBitAt (d : Disk) (start i j : Nat) :
    bitAt (clearBitAt d start i) start j = (bitAt d start j && decide (j ≠ i)) := by
  unfold bitAt clearBitAt
  by_cases hb : start + j / 32768 = start + i / 32768
  · rw [hb, Function.update_self,
      clearBit_testBit _ (Nat.mod_lt _ (by omega)) (Nat.mod_lt _ (by omega))]
    congr 1
    exact decide_eq_decide.mpr ⟨fun h => by omega, fun h => by omega⟩
  · rw [Function.update_of_ne hb, show decide (j ≠ i) = true from decide_eq_true (by
      intro he; rw [he] at hb; exact hb rfl), Bool.and_true]

/-- The blocks of a bitmap are read from the disk as they stand. -/
theorem bitAt_congr {d d' : Disk} {start i : Nat}
    (h : d' (start + i / 32768) = d (start + i / 32768)) : bitAt d' start i = bitAt d start i := by
  unfold bitAt; rw [h]

theorem markLoop_spec (d : Disk) (limit start : Nat) : ∀ {n k : Nat}, start + k + n ≤ 2 ^ 16 →
    (markLoop d limit (start + k) (32768 * k) n = (0, d)
        ∧ ∀ j, 32768 * k ≤ j → j < 32768 * (k + n) → j < limit → bitAt d start j = true)
    ∨ ∃ r, markLoop d limit (start + k) (32768 * k) n = (r, setBitAt d start r)
        ∧ 32768 * k ≤ r ∧ r < 32768 * (k + n) ∧ r < limit ∧ bitAt d start r = false
        ∧ ∀ j, 32768 * k ≤ j → j < r → bitAt d start j = true
  | 0, k, _ => by
    left
    refine ⟨rfl, fun j h1 h2 _ => ?_⟩
    omega
  | n + 1, k, hle => by
    have hread : blockRead d (start + k) = d (start + k) := by
      unfold blockRead
      rw [Nat.mod_eq_of_lt (by omega)]
    -- the bits of this block are the bits of the map from `32768 * k` on
    have hbit : ∀ c, c < 32768 → bitAt d start (32768 * k + c) = blockBit (d (start + k)) c := by
      intro c hc
      unfold bitAt blockBit
      rw [show (32768 * k + c) / 32768 = k by omega, show (32768 * k + c) / 8 % 4096 = c / 8 by omega,
        show (32768 * k + c) % 8 = c % 8 by omega]
    have hscan := scanBlock_spec (d (start + k)) limit (32768 * k) (n := 4096) (i := 0)
    simp only [Nat.mul_zero, Nat.add_zero, Nat.zero_add, Nat.zero_le, true_and,
      forall_const] at hscan
    rw [markLoop, hread, show blockSize = 4096 from rfl]
    rcases hscan with ⟨hm, hs⟩ | ⟨hl, t, h1, h2, h3⟩ | ⟨t, hf, h2, h3, h4, h5⟩
    · rw [hm]
      have hblock : ∀ j, 32768 * k ≤ j → j < 32768 * (k + 1) → bitAt d start j = true := by
        intro j h1 h2
        obtain ⟨c, rfl⟩ : ∃ c, j = 32768 * k + c := ⟨j - 32768 * k, by omega⟩
        rw [hbit c (by omega)]
        exact hs c (by omega)
      have hih := markLoop_spec d limit start (n := n) (k := k + 1) (by omega)
      rw [show start + (k + 1) = start + k + 1 by omega,
        show k + 1 + n = k + (n + 1) by omega] at hih
      rcases hih with ⟨he, hs'⟩ | ⟨r, he, h1, h2, h3, h4, h5⟩
      · refine Or.inl ⟨he, fun j h1 h2 h3 => ?_⟩
        exact bits_trans hblock (fun c h4 h5 => hs' c h4 (by omega) (by omega)) j h1 (Nat.lt_succ_self j)
      · exact Or.inr ⟨r, he, by omega, h2, h3, h4, bits_trans hblock h5⟩
    · rw [hl]
      refine Or.inl ⟨rfl, fun j h4 h5 h6 => ?_⟩
      obtain ⟨c, rfl⟩ : ∃ c, j = 32768 * k + c := ⟨j - 32768 * k, by omega⟩
      rw [hbit c (by omega)]
      exact h3 c (by omega)
    · rw [hf]
      refine Or.inr ⟨32768 * k + t, ?_, by omega, by omega, h3, ?_, fun j h6 h7 => ?_⟩
      · unfold setBitAt blockWrite
        rw [show (32768 * k + t) / 32768 = k by omega,
          show (32768 * k + t) / 8 % 4096 = t / 8 by omega,
          show (32768 * k + t) % 8 = t % 8 by omega]
        rw [Nat.mod_eq_of_lt (show start + k < 2 ^ 16 by omega)]
      · rw [hbit t (by omega)]; exact h4
      · obtain ⟨c, rfl⟩ : ∃ c, j = 32768 * k + c := ⟨j - 32768 * k, by omega⟩
        rw [hbit c (by omega)]
        exact h5 c (by omega)

/-- **`mark_map` marks the first clear bit below the limit, if there is one.** -/
theorem markMap_spec (d : Disk) (start stop limit : Nat) (h1 : start < 2 ^ 16)
    (h2 : stop < 2 ^ 16) :
    (markMap d start stop limit = (0, d)
        ∧ ∀ j, j < 32768 * (stop - start) → j < limit → bitAt d start j = true)
    ∨ ∃ r, markMap d start stop limit = (r, setBitAt d start r) ∧ r < 32768 * (stop - start)
        ∧ r < limit ∧ bitAt d start r = false ∧ ∀ j, j < r → bitAt d start j = true := by
  have h := markLoop_spec d limit start (n := stop - start) (k := 0) (by omega)
  simp only [Nat.mul_zero, Nat.zero_add, Nat.zero_le, true_and, forall_const] at h
  unfold markMap
  rw [Nat.mod_eq_of_lt h1, Nat.mod_eq_of_lt h2]
  exact h

/-- **`unmark_map` clears one bit.** -/
theorem unmarkMap_eq (d : Disk) {index start : Nat} (h : start + index / 32768 < 2 ^ 16) :
    unmarkMap d index start = clearBitAt d start index := by
  have hb : index / 8 / blockSize = index / 32768 := by
    unfold blockSize; rw [Nat.div_div_eq_div_mul]
  unfold unmarkMap blockWrite blockRead
  simp only [hb]
  rw [Nat.mod_eq_of_lt h]
  rfl

theorem clearBitAt_setBitAt (d : Disk) {start i : Nat} (h : bitAt d start i = false) :
    clearBitAt (setBitAt d start i) start i = d := by
  have hb : i % 8 < 8 := Nat.mod_lt _ (by omega)
  have hbyte : ∀ x : UInt8, x.toNat.testBit (i % 8) = false →
      (x ||| UInt8.ofNat (1 <<< (i % 8))) &&& ~~~ UInt8.ofNat (1 <<< (i % 8)) = x := by
    intro x hx
    refine eq_of_bits fun c hc => ?_
    rw [testBit_clear _ hb hc, testBit_set _ hb]
    by_cases he : c = i % 8
    · simp [he, hx]
    · simp [he]
  unfold clearBitAt setBitAt clearBit setBit
  simp [hbyte _ h]

/-- Bit `r` is the first clear one below the limit, in a bitmap of `n` blocks. -/
def FirstClear (d : Disk) (start n limit r : Nat) : Prop :=
  r < 32768 * n ∧ r < limit ∧ bitAt d start r = false ∧ ∀ j, j < r → bitAt d start j = true

/-- **Allocation is first fit.** The first clear bit below the limit is returned and set, in its
block only, and `unmark_map` puts the disk back; with no such bit nothing is written. -/
theorem markMap_first_fit (d : Disk) (start stop : UInt16) (limit : Nat) :
    (∀ r, FirstClear d start.toNat (stop.toNat - start.toNat) limit r →
      ∃ d', markMap d start.toNat stop.toNat limit = (r, d')
        ∧ (∀ i, bitAt d' start.toNat i = (bitAt d start.toNat i || decide (i = r)))
        ∧ (∀ b, b ≠ start.toNat + r / 32768 → d' b = d b)
        ∧ unmarkMap d' r start.toNat = d) ∧
    ((¬ ∃ r, FirstClear d start.toNat (stop.toNat - start.toNat) limit r) →
      markMap d start.toNat stop.toNat limit = (0, d)) := by
  have hstop := stop.toNat_lt
  rcases markMap_spec d start.toNat stop.toNat limit start.toNat_lt hstop with
    ⟨he, hall⟩ | ⟨r, he, hr, hlim, hclear, hset⟩
  · refine ⟨fun r ⟨hr, hlim, hclear, _⟩ => ?_, fun _ => he⟩
    rw [hall r hr hlim] at hclear
    cases hclear
  · refine ⟨fun r' ⟨_, _, hclear', hset'⟩ => ?_, fun hno => absurd ⟨r, hr, hlim, hclear, hset⟩ hno⟩
    -- of two first clear bits neither is below the other
    obtain rfl : r' = r := by
      rcases Nat.lt_trichotomy r' r with h | h | h
      · rw [hset r' h] at hclear'
        cases hclear'
      · exact h
      · rw [hset' r h] at hclear
        cases hclear
    refine ⟨_, he, bitAt_setBitAt d start.toNat r', fun b hb => Function.update_of_ne hb _ _, ?_⟩
    rw [unmarkMap_eq _ (by omega), clearBitAt_setBitAt d hclear]

end Cyanurus
