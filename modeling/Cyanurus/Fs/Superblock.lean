import Cyanurus.Fs.Layout

/-!
# Marking on any volume

`superblock_init` of `src/kernel/superblock.c` looks at the magic number and at the block
size; the sizes in the superblock are taken as they are. This module follows `mark_zmap` and
`mark_imap` on every superblock that is accepted.

`mark_map` scans the bits below a limit, as far as the blocks of the map go
(`Superblock.scanned`), and returns the number of a bit, which has 32 bits. `mark_zmap` keeps
it in a `block_index`, which has 16. It is sound for every content of the map exactly if no
bit that is scanned, and no zone that such a bit stands for, is out of that range.

The limits are the numbers of zones and of inodes, but bit 0 of both maps is reserved: the
last zone and the last inode are never handed out.
-/

namespace Cyanurus

/-! ## The superblock -/

/-- `SUPERBLOCK_ADDRESS` -/
def superblockAddress : Nat := 0x400

/-- `SUPER_MAGIC_V3` -/
def superMagicV3 : Nat := 0x4d5a

/-- Why `superblock_init` halts, with the number it logs. -/
inductive BadSuperblock where
  /-- "invalid magic bytes" -/
  | magic (n : Nat)
  /-- "blocks per zone must be zero" -/
  | logZoneSize (n : Nat)
  /-- "block size must be 4096" -/
  | blockSize (n : Nat)
deriving DecidableEq, Repr

/-- `superblock_init` -/
def superblockInit (d : Disk) : Except BadSuperblock Superblock :=
  let buf := blockRead d 0
  let sMagic := buf.load 2 (superblockAddress + 24)
  let sLogZoneSize := buf.load 2 (superblockAddress + 12)
  let sBlocksize := buf.load 2 (superblockAddress + 28)
  if sMagic ≠ superMagicV3 then .error (.magic sMagic)
  else if sLogZoneSize ≠ 0 then .error (.logZoneSize sLogZoneSize)
  else if sBlocksize ≠ blockSize then .error (.blockSize sBlocksize)
  else .ok {
    sNinodes := buf.load 4 superblockAddress
    sImapBlocks := buf.load 2 (superblockAddress + 6)
    sZmapBlocks := buf.load 2 (superblockAddress + 8)
    sFirstdatazone := buf.load 2 (superblockAddress + 10)
    sZones := buf.load 4 (superblockAddress + 20) }

/-- What is known of a superblock that was accepted: the widths of its fields. -/
structure Superblock.Widths (sb : Superblock) : Prop where
  ninodes : sb.sNinodes < 2 ^ 32
  imapBlocks : sb.sImapBlocks < 2 ^ 16
  zmapBlocks : sb.sZmapBlocks < 2 ^ 16
  firstdatazone : sb.sFirstdatazone < 2 ^ 16
  zones : sb.sZones < 2 ^ 32

variable {sb : Superblock} {d d₀ : Disk}

theorem superblockInit_widths (h : superblockInit d₀ = .ok sb) : sb.Widths := by
  unfold superblockInit at h
  simp only at h
  split at h
  · cases h
  split at h
  · cases h
  split at h
  · cases h
  cases h
  exact ⟨Bytes.load_lt _ 4 _, Bytes.load_lt _ 2 _, Bytes.load_lt _ 2 _, Bytes.load_lt _ 2 _,
    Bytes.load_lt _ 4 _⟩

/-- An image with a superblock in its block 0. -/
def superblockImage (sb : Superblock) : Disk := fun _ =>
  Bytes.store (Bytes.store (Bytes.store (Bytes.store (Bytes.store (Bytes.store (Bytes.store
    (fun _ => 0)
    2 (superblockAddress + 28) blockSize)
    2 (superblockAddress + 24) superMagicV3)
    4 (superblockAddress + 20) sb.sZones)
    2 (superblockAddress + 10) sb.sFirstdatazone)
    2 (superblockAddress + 8) sb.sZmapBlocks)
    2 (superblockAddress + 6) sb.sImapBlocks)
    4 superblockAddress sb.sNinodes

/-- **Every choice of sizes is accepted.** -/
theorem superblockInit_image (hw : sb.Widths) : superblockInit (superblockImage sb) = .ok sb := by
  have hzero : ∀ a, Bytes.load (fun _ => 0) 2 a = 0 := fun _ => rfl
  have hapart : ∀ (m : Bytes) (v : Nat) {a n b k : Nat}, a + n ≤ b ∨ b + k ≤ a →
      (m.store n a v).load k b = m.load k b := fun m v _ _ _ _ h => Bytes.load_store_apart m v h
  unfold superblockInit superblockImage blockRead
  simp (disch := omega) only [hapart, Bytes.load_store_self]
  rw [if_neg (by decide), if_neg (by decide), if_neg (by decide)]
  rw [show 256 ^ 4 = 2 ^ 32 from rfl, show 256 ^ 2 = 2 ^ 16 from rfl]
  rw [Nat.mod_eq_of_lt hw.ninodes, Nat.mod_eq_of_lt hw.imapBlocks, Nat.mod_eq_of_lt hw.zmapBlocks,
    Nat.mod_eq_of_lt hw.firstdatazone, Nat.mod_eq_of_lt hw.zones]

/-! ## What `mark_map` finds -/

/-- The block that the scan of the zone map starts at, as a `block_index`. -/
def Superblock.zmapBlock (sb : Superblock) : Nat := sb.zmapStart % 2 ^ 16

/-- How many bits `mark_zmap` looks at: those below the limit, in blocks that are scanned. -/
def Superblock.scanned (sb : Superblock) : Nat :=
  min (sb.sZones - sb.sFirstdatazone)
    (32768 * ((sb.zmapStart + sb.sZmapBlocks) % 2 ^ 16 - sb.zmapBlock))

/-- **The scan of the zone map finds the first clear bit, if there is one.** -/
theorem scan_zmap (hw : sb.Widths) (hfirst : sb.sFirstdatazone ≤ sb.sZones) (d : Disk) :
    (markMap d sb.zmapStart (sb.zmapStart + sb.sZmapBlocks) sb.zmapLimits = (0, d)
        ∧ ∀ j, j < sb.scanned → bitAt d sb.zmapBlock j = true)
    ∨ ∃ r, markMap d sb.zmapStart (sb.zmapStart + sb.sZmapBlocks) sb.zmapLimits
          = (r, setBitAt d sb.zmapBlock r)
        ∧ r < sb.scanned ∧ bitAt d sb.zmapBlock r = false
        ∧ ∀ j, j < r → bitAt d sb.zmapBlock j = true := by
  have hlim : sb.zmapLimits = sb.sZones - sb.sFirstdatazone := by
    have := hw.zones
    unfold Superblock.zmapLimits
    omega
  have hblock : sb.zmapBlock < 2 ^ 16 := Nat.mod_lt _ (by decide)
  have hspec := markLoop_spec d sb.zmapLimits sb.zmapBlock
    (n := (sb.zmapStart + sb.sZmapBlocks) % 2 ^ 16 - sb.zmapBlock) (k := 0) (by omega)
  simp only [Nat.mul_zero, Nat.zero_le, true_and, forall_const] at hspec
  unfold Superblock.scanned
  rcases hspec with ⟨he, hall⟩ | ⟨r, he, h1, h2, h3, h4⟩
  · exact Or.inl ⟨he, fun j hj => hall j (by omega) (by omega)⟩
  · exact Or.inr ⟨r, he, by omega, h3, h4⟩

/-! ## Marking a zone -/

/-- One call of `mark_zmap` is sound: the zone it returns was unmarked and gets its mark, and
nothing else happens; without a zone nothing is marked but the reserved bit. -/
structure MarkSound (sb : Superblock) (d : Disk) : Prop where
  zone : ∀ {z}, (markZmap sb d).1 = z → z ≠ 0 → sb.IsZone z
    ∧ bitAt d sb.zmapBlock (z - sb.sFirstdatazone + 1) = false
    ∧ (markZmap sb d).2 = setBitAt d sb.zmapBlock (z - sb.sFirstdatazone + 1)
  none : (markZmap sb d).1 = 0 → (markZmap sb d).2 = d ∨ (markZmap sb d).2 = setBitAt d sb.zmapBlock 0

/-- Nothing is scanned but the reserved bit, or zone 0 is no data zone and no bit that is
scanned stands for a zone outside the range of a `block_index`. -/
def Superblock.Narrow (sb : Superblock) : Prop :=
  sb.scanned ≤ 1 ∨ 0 < sb.sFirstdatazone ∧ sb.scanned + sb.sFirstdatazone ≤ 2 ^ 16 + 1

/-- What `mark_zmap` does with the bit that the scan set. -/
theorem markZmap_of_scan {r : Nat}
    (he : markMap d sb.zmapStart (sb.zmapStart + sb.sZmapBlocks) sb.zmapLimits
      = (r, setBitAt d sb.zmapBlock r)) :
    markZmap sb d = (if r % 2 ^ 16 = 0 then 0 else (r % 2 ^ 16 + sb.sFirstdatazone - 1) % 2 ^ 16,
      setBitAt d sb.zmapBlock r) := by
  unfold markZmap
  rw [he]
  simp only
  split <;> rfl

theorem markSound_of_narrow (hw : sb.Widths) (hfirst : sb.sFirstdatazone < sb.sZones)
    (hn : sb.Narrow) (d : Disk) : MarkSound sb d := by
  have hzones : sb.scanned ≤ sb.sZones - sb.sFirstdatazone := Nat.min_le_left _ _
  unfold Superblock.Narrow at hn
  rcases scan_zmap hw (Nat.le_of_lt hfirst) d with ⟨he, _⟩ | ⟨r, he, hr, hclear, _⟩
  · have hmark : markZmap sb d = (0, d) := by
      unfold markZmap
      rw [he]
      rfl
    exact ⟨fun h h0 => absurd (h.symm.trans (by rw [hmark])) h0, fun _ => Or.inl (by rw [hmark])⟩
  · have hmark := markZmap_of_scan he
    by_cases hr0 : r = 0
    · subst hr0
      exact ⟨fun h h0 => absurd (h.symm.trans (by rw [hmark]; rfl)) h0,
        fun _ => Or.inr (by rw [hmark])⟩
    · -- the bit is not the reserved one, so there is more than one that is scanned
      have hr16 : r % 2 ^ 16 = r := Nat.mod_eq_of_lt (by omega)
      rw [hr16, if_neg hr0, Nat.mod_eq_of_lt (by omega)] at hmark
      refine ⟨fun {z} h h0 => ?_, fun h => ?_⟩
      · obtain rfl : r + sb.sFirstdatazone - 1 = z := by rw [← h, hmark]
        rw [show r + sb.sFirstdatazone - 1 - sb.sFirstdatazone + 1 = r by omega, hmark]
        exact ⟨⟨by omega, by omega⟩, hclear, rfl⟩
      · rw [hmark] at h
        omega

/-- A disk on which bit `r` of the zone map is the only one that is clear. -/
def fullBut (sb : Superblock) (r : Nat) : Disk := clearBitAt (fun _ _ => 0xff) sb.zmapBlock r

theorem bitAt_fullBut (sb : Superblock) (r j : Nat) :
    bitAt (fullBut sb r) sb.zmapBlock j = decide (j ≠ r) := by
  have hbits : ∀ c, c < 8 → (0xff : UInt8).toNat.testBit c = true := by decide
  have hff : bitAt (fun _ _ => 0xff) sb.zmapBlock j = true := hbits _ (Nat.mod_lt _ (by decide))
  unfold fullBut
  rw [bitAt_clearBitAt, hff]
  simp

/-- The scan of that disk finds the bit. -/
theorem scan_fullBut (hw : sb.Widths) (hfirst : sb.sFirstdatazone ≤ sb.sZones) {r : Nat}
    (hr : r < sb.scanned) :
    markMap (fullBut sb r) sb.zmapStart (sb.zmapStart + sb.sZmapBlocks) sb.zmapLimits
      = (r, setBitAt (fullBut sb r) sb.zmapBlock r) := by
  rcases scan_zmap hw hfirst (fullBut sb r) with ⟨_, hall⟩ | ⟨r', he, _, hclear, _⟩
  · have := hall r hr
    rw [bitAt_fullBut] at this
    simp at this
  · obtain rfl : r' = r := by
      rw [bitAt_fullBut] at hclear
      simpa using hclear
    exact he

/-- **A volume that is not narrow has a map on which `mark_zmap` goes wrong**: the one whose
only clear bit is the one in question. -/
theorem not_markSound (hw : sb.Widths) (hfirst : sb.sFirstdatazone < sb.sZones)
    (hn : ¬ sb.Narrow) : ∃ d, ¬ MarkSound sb d := by
  unfold Superblock.Narrow at hn
  -- bit 1 stands for zone 0 if that is the first one; otherwise the last bit is too large
  obtain ⟨r, hr, hr0, hbad⟩ : ∃ r, r < sb.scanned ∧ r ≠ 0
      ∧ (r % 2 ^ 16 = 0 ∨ 2 ^ 16 ≤ r ∨ r % 2 ^ 16 + sb.sFirstdatazone - 1 = 0
        ∨ 2 ^ 16 ≤ r + sb.sFirstdatazone - 1) := by
    by_cases hf : sb.sFirstdatazone = 0
    · exact ⟨1, by omega, by omega, by omega⟩
    · exact ⟨sb.scanned - 1, by omega, by omega, by omega⟩
  refine ⟨fullBut sb r, fun hs => ?_⟩
  have hmark := markZmap_of_scan (scan_fullBut hw (Nat.le_of_lt hfirst) hr)
  -- bit `r` gets set, so it is neither left alone nor the reserved one
  have hset : bitAt (markZmap sb (fullBut sb r)).2 sb.zmapBlock r = true := by
    rw [hmark, bitAt_setBitAt]
    simp
  have hnone : (markZmap sb (fullBut sb r)).1 ≠ 0 := by
    intro h0
    rcases hs.none h0 with he | he
    · rw [he, bitAt_fullBut] at hset
      simp at hset
    · rw [he, bitAt_setBitAt, bitAt_fullBut] at hset
      simp [hr0] at hset
  obtain ⟨⟨hz, _⟩, hclear, _⟩ := hs.zone rfl hnone
  rw [bitAt_fullBut] at hclear
  have hzr : (markZmap sb (fullBut sb r)).1 - sb.sFirstdatazone + 1 = r := by simpa using hclear
  rw [hmark] at hzr hz hnone
  split at hnone
  · exact hnone rfl
  · rename_i h16
    rw [if_neg h16] at hzr hz
    omega

/-! ## Every accepted volume -/

/-- **`mark_zmap` is sound for every content of the zone map exactly if the volume is
narrow.** -/
theorem markZmap_sound_iff (h : superblockInit d₀ = .ok sb)
    (hfirst : sb.sFirstdatazone < sb.sZones) : (∀ d, MarkSound sb d) ↔ sb.Narrow := by
  have hw := superblockInit_widths h
  refine ⟨fun hall => ?_, fun hn d => markSound_of_narrow hw hfirst hn d⟩
  by_contra hn
  obtain ⟨d, hd⟩ := not_markSound hw hfirst hn
  exact hd (hall d)

/-- A volume with `zones` zones, of which the first five hold the maps and the inode table. -/
def volumeOf (zones zmapBlocks : Nat) : Superblock :=
  { sNinodes := 63, sImapBlocks := 1, sZmapBlocks := zmapBlocks, sFirstdatazone := 5
    sZones := zones }

theorem volumeOf_widths {zones zmapBlocks : Nat} (h1 : zones < 2 ^ 32) (h2 : zmapBlocks < 2 ^ 16) :
    (volumeOf zones zmapBlocks).Widths :=
  ⟨show 63 < 2 ^ 32 by decide, show 1 < 2 ^ 16 by decide, h2, show 5 < 2 ^ 16 by decide, h1⟩

/-- Zone 65536 of a volume with 65540 zones has no number, and its bit gets lost. -/
theorem markZmap_unsound : ¬ ∀ (d₀ : Disk) (sb : Superblock), superblockInit d₀ = .ok sb →
    sb.sFirstdatazone < sb.sZones → ∀ d, MarkSound sb d := by
  intro h
  have hw : (volumeOf 65540 3).Widths := volumeOf_widths (by decide) (by decide)
  obtain ⟨d, hd⟩ := not_markSound hw (by decide) (by unfold Superblock.Narrow; decide)
  exact hd (h _ _ (superblockInit_image hw) (by decide) d)

/-- A volume whose zone map is one block. -/
theorem markZmap_sound_small : (∀ d, MarkSound (volumeOf 4096 1) d) ↔ (volumeOf 4096 1).Narrow :=
  markZmap_sound_iff (superblockInit_image (volumeOf_widths (by decide) (by decide))) (by decide)

/-! ## Out of space -/

/-- Every data zone is marked. -/
def NoZoneLeft (sb : Superblock) (d : Disk) : Prop := ∀ z, sb.IsZone z → zmapBit sb d z = true

/-- Every inode is marked. -/
def NoInodeLeft (sb : Superblock) (d : Disk) : Prop := ∀ n, sb.IsInode n → imapBit d n = true

/-- **`mark_zmap` gives up exactly if every zone before the last one is marked.** -/
theorem markZmap_none_iff (hl : sb.Layout) (hz : sb.sZones ≤ 2 ^ 16)
    (h0 : bitAt d sb.zmapStart 0 = true) :
    (markZmap sb d).1 = 0 ↔ ∀ z, sb.IsZone z → z + 1 < sb.sZones → zmapBit sb d z = true := by
  rcases markZmap_spec hl hz d with ⟨d', he, _, _, hall⟩ | ⟨z, d', he, _, hzone, hlast, hz0, hfree, _⟩
  · exact ⟨fun _ => (hall h0).2, fun _ => by rw [he]⟩
  · constructor
    · intro h
      rw [he] at h
      exact absurd h hz0
    · intro hall
      rw [hall z hzone hlast] at hfree
      cases hfree

/-- **`mark_imap` gives up exactly if every inode before the last one is marked.** -/
theorem markImap_none_iff (hl : sb.Layout) (h0 : bitAt d Superblock.imapZoneIndex 0 = true) :
    (markImap sb d).1 = 0 ↔ ∀ n, sb.IsInode n → n < sb.sNinodes → imapBit d n = true := by
  have h1 := hl.table
  have h2 := hl.first
  have h3 := hl.imap
  have hspec := markMap_spec d Superblock.imapZoneIndex
    (Superblock.imapZoneIndex + sb.sImapBlocks) sb.sNinodes (by decide) (by
      unfold Superblock.inodeZoneIndex at h1
      omega)
  unfold markImap imapBit
  rcases hspec with ⟨he, hall⟩ | ⟨r, he, _, hr, hfree, _⟩
  · refine ⟨fun _ n hn hlast => hall n (by omega) hlast, fun _ => by rw [he]⟩
  · have hr0 : r ≠ 0 := by
      rintro rfl
      rw [h0] at hfree
      cases hfree
    constructor
    · intro h
      rw [he] at h
      exact absurd h hr0
    · intro hall
      rw [hall r ⟨by omega, by omega⟩ hr] at hfree
      cases hfree

/-- A call that gives up was right to. -/
structure OutOfSpace (sb : Superblock) (d : Disk) : Prop where
  zones : (markZmap sb d).1 = 0 → NoZoneLeft sb d
  inodes : (markImap sb d).1 = 0 → NoInodeLeft sb d

/-- **A volume is reported full exactly when it is, unless the last zone or the last inode is
the only one that is left.** -/
theorem outOfSpace_iff (hl : sb.Layout) (hz : sb.sZones ≤ 65535)
    (hz0 : bitAt d sb.zmapStart 0 = true) (hi0 : bitAt d Superblock.imapZoneIndex 0 = true) :
    OutOfSpace sb d ↔
      (zmapBit sb d (sb.sZones - 1) = true
        ∨ ∃ z, sb.IsZone z ∧ z + 1 < sb.sZones ∧ zmapBit sb d z = false)
      ∧ (sb.sNinodes = 0 ∨ imapBit d sb.sNinodes = true
        ∨ ∃ n, sb.IsInode n ∧ n < sb.sNinodes ∧ imapBit d n = false) := by
  have hzone := markZmap_none_iff hl (by omega) hz0
  have hinode := markImap_none_iff hl hi0
  have hfirst := hl.first.2
  constructor
  · intro h
    constructor
    · by_cases hall : ∀ z, sb.IsZone z → z + 1 < sb.sZones → zmapBit sb d z = true
      · exact Or.inl (h.zones (hzone.mpr hall) _ ⟨by omega, by omega⟩)
      · push Not at hall
        obtain ⟨z, h1, h2, h3⟩ := hall
        exact Or.inr ⟨z, h1, h2, by simpa using h3⟩
    · by_cases hn0 : sb.sNinodes = 0
      · exact Or.inl hn0
      by_cases hall : ∀ n, sb.IsInode n → n < sb.sNinodes → imapBit d n = true
      · exact Or.inr (Or.inl (h.inodes (hinode.mpr hall) _ ⟨by omega, by omega⟩))
      · push Not at hall
        obtain ⟨n, h1, h2, h3⟩ := hall
        exact Or.inr (Or.inr ⟨n, h1, h2, by simpa using h3⟩)
  · rintro ⟨hz1, hn1⟩
    refine ⟨fun h z hzone' => ?_, fun h n hn => ?_⟩
    · have hall := hzone.mp h
      rcases hz1 with hlast | ⟨z', h1, h2, h3⟩
      · by_cases he : z = sb.sZones - 1
        · rw [he]; exact hlast
        · exact hall z hzone' (by have := hzone'.2; omega)
      · rw [hall z' h1 h2] at h3
        cases h3
    · have hall := hinode.mp h
      rcases hn1 with h0 | hlast | ⟨n', h1, h2, h3⟩
      · have := hn.1
        have := hn.2
        omega
      · by_cases he : n = sb.sNinodes
        · rw [he]; exact hlast
        · exact hall n hn (by have := hn.2; omega)
      · rw [hall n' h1 h2] at h3
        cases h3

theorem volumeOf_layout : (volumeOf 4096 1).Layout :=
  ⟨by decide, by decide, by decide, by decide⟩

/-- With the last zone as the only one that is left, `mark_zmap` finds nothing. -/
theorem outOfSpace_too_early : ¬ ∀ (sb : Superblock) (d : Disk), sb.Layout → sb.sZones ≤ 65535 →
    bitAt d sb.zmapStart 0 = true → bitAt d Superblock.imapZoneIndex 0 = true →
    OutOfSpace sb d := by
  intro h
  have hbit : ∀ j, bitAt (fullBut (volumeOf 4096 1) 4091) (volumeOf 4096 1).zmapStart j
      = decide (j ≠ 4091) := bitAt_fullBut (volumeOf 4096 1) 4091
  have hz0 : bitAt (fullBut (volumeOf 4096 1) 4091) (volumeOf 4096 1).zmapStart 0 = true :=
    (hbit 0).trans (by decide)
  have hfull := (h _ (fullBut (volumeOf 4096 1) 4091) volumeOf_layout (by decide) hz0
    (by decide)).zones
  have hnone := (markZmap_none_iff volumeOf_layout (by decide) hz0).mpr fun z hz hlast => by
    have h1 : z < 4095 := Nat.lt_of_succ_lt_succ hlast
    refine (hbit _).trans (decide_eq_true ?_)
    show z - 5 + 1 ≠ 4091
    omega
  have hlast := hfull hnone 4095 ⟨by decide, by decide⟩
  exact absurd ((hbit 4091).symm.trans hlast) (by decide)

/-- On an empty volume there is space. -/
theorem outOfSpace_empty : OutOfSpace (volumeOf 4096 1) (fun _ => Bytes.store (fun _ => 0) 1 0 1) :=
  (outOfSpace_iff volumeOf_layout (by decide) (by decide) (by decide)).mpr
    ⟨Or.inr ⟨5, ⟨by decide, by decide⟩, by decide, by decide⟩,
      Or.inr (Or.inr ⟨1, ⟨by decide, by decide⟩, by decide, by decide⟩)⟩

end Cyanurus
