import Cyanurus.Fs.Inode

/-!
# The layout of a volume

The blocks of a volume: two blocks at the start, the inode map, the zone map, the
inode table, the data zones. `Layout` says that they follow each other without
overlap, so that a write to one part is invisible in the others.

What the kernel reads from a disk is `imapBit`, `zmapBit`, `readInode` and the data
zones themselves. Each of the primitive writes has a lemma here for the part it
changes; for the other parts there is one frame lemma per observer.
-/

namespace Cyanurus

/-- The parts of the volume do not overlap, and the maps and the table are large enough. -/
structure Superblock.Layout (sb : Superblock) : Prop where
  /-- The inode table ends before the first data zone. -/
  table : sb.inodeZoneIndex + (sb.sNinodes + 63) / 64 ≤ sb.sFirstdatazone
  /-- `s_firstdatazone` is a 16-bit field, and there is a data zone. -/
  first : sb.sFirstdatazone < 2 ^ 16 ∧ sb.sFirstdatazone < sb.sZones
  /-- The inode map has a bit for every inode. -/
  imap : sb.sNinodes < 32768 * sb.sImapBlocks
  /-- The zone map has a bit for every data zone, and `s_zones` is a 32-bit field. -/
  zmap : sb.sZones - sb.sFirstdatazone < 32768 * sb.sZmapBlocks ∧ sb.sZones < 2 ^ 32

/-- The bit of inode `n`. -/
def imapBit (d : Disk) (n : Nat) : Bool := bitAt d Superblock.imapZoneIndex n

/-- The bit of zone `z`. -/
def zmapBit (sb : Superblock) (d : Disk) (z : Nat) : Bool :=
  bitAt d sb.zmapStart (z - sb.sFirstdatazone + 1)

/-- A number of an inode of the volume. -/
def Superblock.IsInode (sb : Superblock) (n : Nat) : Prop := 1 ≤ n ∧ n ≤ sb.sNinodes

/-- A number of a data zone of the volume. -/
def Superblock.IsZone (sb : Superblock) (z : Nat) : Prop := sb.sFirstdatazone ≤ z ∧ z < sb.sZones

/-! ## Fields of the on-disk inode -/

theorem iZone_setZone_self (ino : Bytes) (k v : Nat) :
    iZone (setZone ino k v) k = v % 2 ^ 32 := Bytes.load_store_self ino 4 (24 + 4 * k) v

theorem iZone_setZone_ne (ino : Bytes) {k l : Nat} (v : Nat) (h : l ≠ k) :
    iZone (setZone ino k v) l = iZone ino l :=
  Bytes.load_store_apart ino v (by unfold Bytes.Apart; omega)

theorem iZone_setSize (ino : Bytes) (k v : Nat) : iZone (setSize ino v) k = iZone ino k :=
  Bytes.load_store_apart ino v (by unfold Bytes.Apart; omega)

theorem iSize_setSize (ino : Bytes) (v : Nat) : iSize (setSize ino v) = v % 2 ^ 32 :=
  Bytes.load_store_self ino 4 8 v

/-- The fields before the zones: mode, links, owners, size and times. -/
theorem setZone_head (ino : Bytes) (k v : Nat) {x : Nat} (hx : x < 24) :
    setZone ino k v x = ino x := by
  unfold setZone Bytes.store
  rw [if_neg (by omega)]

theorem iSize_congr {a b : Bytes} (h : ∀ x, x < 24 → b x = a x) : iSize b = iSize a :=
  Bytes.load_congr fun x _ hx => h x (by omega)

theorem iZone_congr {a b : Bytes} (h : ∀ x, x < 64 → b x = a x) {k : Nat} (hk : k < 10) :
    iZone b k = iZone a k :=
  Bytes.load_congr fun x _ hx => h x (by omega)

/-! ## Where things are -/

variable {sb : Superblock} {d d' : Disk} {n z : Nat}

theorem inodeBlock_eq (hl : sb.Layout) (hn : sb.IsInode n) :
    inodeBlock sb n = sb.inodeZoneIndex + (n - 1) / 64
      ∧ sb.inodeZoneIndex + (n - 1) / 64 < sb.sFirstdatazone := by
  have h1 := hl.table
  have h2 := hl.first
  unfold Superblock.IsInode at hn
  unfold inodeBlock inodesPerBlock
  omega

theorem inodeOffset_eq (hl : sb.Layout) (hn : sb.IsInode n) :
    inodeOffset n = (n - 1) % 64 * 64 := by
  have h1 := hl.table
  unfold Superblock.IsInode at hn
  unfold inodeOffset inodesPerBlock
  omega

/-! ## Frames of the observers -/

theorem imapBit_congr (hl : sb.Layout) (hn : sb.IsInode n)
    (h : ∀ b, b < sb.zmapStart → d' b = d b) : imapBit d' n = imapBit d n := by
  refine bitAt_congr (h _ ?_)
  have := hl.imap
  unfold Superblock.IsInode at hn
  unfold Superblock.zmapStart
  omega

theorem zmapBit_congr (hl : sb.Layout) (hz : sb.IsZone z)
    (h : ∀ b, sb.zmapStart ≤ b → b < sb.inodeZoneIndex → d' b = d b) :
    zmapBit sb d' z = zmapBit sb d z := by
  refine bitAt_congr (h _ (Nat.le_add_right ..) ?_)
  have := hl.zmap
  unfold Superblock.IsZone at hz
  unfold Superblock.zmapStart Superblock.inodeZoneIndex
  omega

theorem readInode_congr (hl : sb.Layout) (hn : sb.IsInode n)
    (h : d' (sb.inodeZoneIndex + (n - 1) / 64) = d (sb.inodeZoneIndex + (n - 1) / 64)) :
    readInode sb d' n = readInode sb d n := by
  obtain ⟨hb, hlt⟩ := inodeBlock_eq hl hn
  have := hl.first
  unfold readInode blockRead
  rw [hb, Nat.mod_eq_of_lt (by omega), h]

/-- A disk that differs from `d` in zones only. -/
def ZonesOnly (sb : Superblock) (d d' : Disk) : Prop := ∀ b, b < sb.sFirstdatazone → d' b = d b

/-- A disk that differs from `d` in the zone map only. -/
def ZmapOnly (sb : Superblock) (d d' : Disk) : Prop :=
  ∀ b, b < sb.zmapStart ∨ sb.inodeZoneIndex ≤ b → d' b = d b

/-- A disk that differs from `d` in the inode map only. -/
def ImapOnly (sb : Superblock) (d d' : Disk) : Prop := ∀ b, sb.zmapStart ≤ b → d' b = d b

/-- A disk that differs from `d` in zones and in the zone map only. -/
def ZoneSide (sb : Superblock) (d d' : Disk) : Prop :=
  ∀ b, b < sb.sFirstdatazone → b < sb.zmapStart ∨ sb.inodeZoneIndex ≤ b → d' b = d b

theorem zmapStart_le (sb : Superblock) : sb.zmapStart ≤ sb.inodeZoneIndex := by
  unfold Superblock.zmapStart Superblock.inodeZoneIndex
  omega

theorem inodeZoneIndex_le (hl : sb.Layout) : sb.inodeZoneIndex ≤ sb.sFirstdatazone := by
  have := hl.table
  omega

theorem ZonesOnly.zmapBit (hl : sb.Layout) (h : ZonesOnly sb d d') (hz : sb.IsZone z) :
    zmapBit sb d' z = zmapBit sb d z :=
  zmapBit_congr hl hz fun b _ hb => h b (by
    have := inodeZoneIndex_le hl
    omega)

/-- The block with bit 0 of the zone map, a bit that belongs to no zone. -/
theorem zmapStart_bit (hl : sb.Layout) : sb.zmapStart + 0 / 32768 < sb.inodeZoneIndex := by
  have h1 := hl.zmap
  unfold Superblock.zmapStart Superblock.inodeZoneIndex
  omega

theorem ZonesOnly.zmapBit0 (hl : sb.Layout) (h : ZonesOnly sb d d') :
    bitAt d' sb.zmapStart 0 = bitAt d sb.zmapStart 0 :=
  bitAt_congr (h _ (Nat.lt_of_lt_of_le (zmapStart_bit hl) (inodeZoneIndex_le hl)))

theorem ZonesOnly.readInode (hl : sb.Layout) (h : ZonesOnly sb d d') (hn : sb.IsInode n) :
    readInode sb d' n = readInode sb d n :=
  readInode_congr hl hn (h _ (inodeBlock_eq hl hn).2)

theorem ZoneSide.imapBit (hl : sb.Layout) (h : ZoneSide sb d d') (hn : sb.IsInode n) :
    imapBit d' n = imapBit d n :=
  imapBit_congr hl hn fun b hb => h b (by
    have := zmapStart_le sb
    have := inodeZoneIndex_le hl
    omega) (Or.inl hb)

theorem ZoneSide.readInode (hl : sb.Layout) (h : ZoneSide sb d d') (hn : sb.IsInode n) :
    readInode sb d' n = readInode sb d n :=
  readInode_congr hl hn (h _ (inodeBlock_eq hl hn).2 (Or.inr (Nat.le_add_right ..)))

theorem ZoneSide.trans {d'' : Disk} (h : ZoneSide sb d d') (h' : ZoneSide sb d' d'') :
    ZoneSide sb d d'' :=
  fun b hb hb' => (h' b hb hb').trans (h b hb hb')

theorem ZonesOnly.zoneSide (h : ZonesOnly sb d d') : ZoneSide sb d d' := fun b hb _ => h b hb

theorem ZmapOnly.imapBit (hl : sb.Layout) (h : ZmapOnly sb d d') (hn : sb.IsInode n) :
    imapBit d' n = imapBit d n :=
  imapBit_congr hl hn fun b hb => h b (Or.inl hb)

theorem ZmapOnly.readInode (hl : sb.Layout) (h : ZmapOnly sb d d') (hn : sb.IsInode n) :
    readInode sb d' n = readInode sb d n :=
  readInode_congr hl hn (h _ (Or.inr (Nat.le_add_right ..)))

theorem ZmapOnly.zone (hl : sb.Layout) (h : ZmapOnly sb d d') (hz : sb.sFirstdatazone ≤ z) :
    d' z = d z :=
  h z (Or.inr (Nat.le_trans (inodeZoneIndex_le hl) hz))

theorem ImapOnly.zmapBit (hl : sb.Layout) (h : ImapOnly sb d d') (hz : sb.IsZone z) :
    zmapBit sb d' z = zmapBit sb d z :=
  zmapBit_congr hl hz fun b hb _ => h b hb

theorem ImapOnly.readInode (hl : sb.Layout) (h : ImapOnly sb d d') (hn : sb.IsInode n) :
    readInode sb d' n = readInode sb d n :=
  readInode_congr hl hn (h _ (Nat.le_trans (zmapStart_le sb) (Nat.le_add_right ..)))

theorem ImapOnly.zone (hl : sb.Layout) (h : ImapOnly sb d d') (hz : sb.sFirstdatazone ≤ z) :
    d' z = d z :=
  h z (Nat.le_trans (Nat.le_trans (zmapStart_le sb) (inodeZoneIndex_le hl)) hz)

/-! ## The zone map -/

theorem blockWrite_zone (hz : z < 2 ^ 16) (d : Disk) (buf : Bytes) :
    blockWrite d z buf = Function.update d z buf := by
  unfold blockWrite
  rw [Nat.mod_eq_of_lt hz]

theorem blockRead_zone (hz : z < 2 ^ 16) (d : Disk) : blockRead d z = d z := by
  unfold blockRead
  rw [Nat.mod_eq_of_lt hz]

theorem update_zonesOnly (hz : sb.sFirstdatazone ≤ z) (d : Disk) (buf : Bytes) :
    ZonesOnly sb d (Function.update d z buf) :=
  fun b hb => Function.update_of_ne (by omega) _ _

/-- **`mark_zmap` marks the first unmarked zone**, but never the last zone of the volume. -/
theorem markZmap_spec (hl : sb.Layout) (hz : sb.sZones ≤ 2 ^ 16) (d : Disk) :
    (∃ d', markZmap sb d = (0, d') ∧ ZmapOnly sb d d'
      ∧ (∀ z, sb.IsZone z → zmapBit sb d' z = zmapBit sb d z)
      ∧ (bitAt d sb.zmapStart 0 = true →
          d' = d ∧ ∀ z, sb.IsZone z → z + 1 < sb.sZones → zmapBit sb d z = true))
    ∨ ∃ z d', markZmap sb d = (z, d') ∧ ZmapOnly sb d d' ∧ sb.IsZone z ∧ z + 1 < sb.sZones
      ∧ z ≠ 0 ∧ zmapBit sb d z = false
      ∧ (∀ z', sb.IsZone z' → z' < z → zmapBit sb d z' = true)
      ∧ (∀ z', sb.IsZone z' → zmapBit sb d' z' = (zmapBit sb d z' || decide (z' = z)))
      ∧ bitAt d' sb.zmapStart 0 = bitAt d sb.zmapStart 0 := by
  have h1 := hl.table
  have h2 := hl.first
  have h3 := hl.zmap
  have hlim : sb.zmapLimits = sb.sZones - sb.sFirstdatazone := by
    unfold Superblock.zmapLimits
    omega
  have honly : ∀ i, i < 32768 * sb.sZmapBlocks → ZmapOnly sb d (setBitAt d sb.zmapStart i) := by
    intro i hi b hb
    refine Function.update_of_ne ?_ _ _
    unfold Superblock.zmapStart Superblock.inodeZoneIndex at *
    omega
  have hend : sb.zmapStart + sb.sZmapBlocks < 2 ^ 16 := by
    unfold Superblock.zmapStart Superblock.inodeZoneIndex at *
    omega
  have hspec := markMap_spec d sb.zmapStart _ sb.zmapLimits (by omega) hend
  rw [Nat.add_sub_cancel_left, hlim] at hspec
  unfold markZmap
  rw [hlim]
  rcases hspec with ⟨he, hall⟩ | ⟨r, he, hr1, hr2, hr3, hr4⟩
  · left
    rw [he]
    refine ⟨d, rfl, fun b _ => rfl, fun z _ => rfl, fun _ => ⟨rfl, fun z hz1 hz2 => ?_⟩⟩
    unfold Superblock.IsZone at hz1
    exact hall _ (by omega) (by omega)
  · rw [he]
    have hmod : r % 2 ^ 16 = r := Nat.mod_eq_of_lt (by omega)
    simp only [hmod]
    by_cases hr0 : r = 0
    · left
      rw [if_pos hr0]
      refine ⟨_, rfl, honly r hr1, fun z hz => ?_, fun hb => ?_⟩
      · unfold zmapBit
        rw [bitAt_setBitAt]
        simp [hr0]
      · rw [hr0, hb] at hr3
        cases hr3
    · right
      rw [if_neg hr0]
      have hzmod : (r + sb.sFirstdatazone - 1) % 2 ^ 16 = r + sb.sFirstdatazone - 1 :=
        Nat.mod_eq_of_lt (by omega)
      rw [hzmod]
      have hidx : r + sb.sFirstdatazone - 1 - sb.sFirstdatazone + 1 = r := by omega
      refine ⟨_, _, rfl, honly r hr1, ⟨by omega, by omega⟩, by omega, ?_, ?_, fun z' hz' hlt => ?_,
        fun z' hz' => ?_, ?_⟩
      · unfold Superblock.inodeZoneIndex at h1
        omega
      · unfold zmapBit
        rw [hidx]; exact hr3
      · unfold Superblock.IsZone at hz'
        exact hr4 _ (by omega)
      · unfold Superblock.IsZone at hz'
        unfold zmapBit
        rw [bitAt_setBitAt]
        congr 1
        exact decide_eq_decide.mpr ⟨fun h => by omega, fun h => by omega⟩
      · rw [bitAt_setBitAt, show decide (0 = r) = false from decide_eq_false (Ne.symm hr0),
          Bool.or_false]

/-- **`unmark_zmap` clears the mark of one zone.** -/
theorem unmarkZmap_spec (hl : sb.Layout) (hz : sb.sZones ≤ 2 ^ 16) (d : Disk) (hzone : sb.IsZone z) :
    ZmapOnly sb d (unmarkZmap sb d z)
      ∧ (∀ z', sb.IsZone z' →
          zmapBit sb (unmarkZmap sb d z) z' = (zmapBit sb d z' && decide (z' ≠ z)))
      ∧ bitAt (unmarkZmap sb d z) sb.zmapStart 0 = bitAt d sb.zmapStart 0 := by
  have h1 := hl.table
  have h3 := hl.zmap
  unfold Superblock.IsZone at hzone
  have heq : unmarkZmap sb d z = clearBitAt d sb.zmapStart (z - sb.sFirstdatazone + 1) := by
    unfold unmarkZmap
    simp only [Nat.mod_eq_of_lt (show z < 2 ^ 16 by omega)]
    rw [if_neg (by omega)]
    refine unmarkMap_eq d ?_
    unfold Superblock.zmapStart Superblock.inodeZoneIndex at *
    omega
  rw [heq]
  refine ⟨fun b hb => ?_, fun z' hz' => ?_, ?_⟩
  · refine Function.update_of_ne ?_ _ _
    unfold Superblock.zmapStart Superblock.inodeZoneIndex at *
    omega
  · unfold Superblock.IsZone at hz'
    unfold zmapBit
    rw [bitAt_clearBitAt]
    congr 1
    exact decide_eq_decide.mpr ⟨fun h => by omega, fun h => by omega⟩
  · rw [bitAt_clearBitAt]
    simp

/-! ## The inode map -/

/-- `mark_imap` marks the first unmarked inode. -/
theorem markImap_spec (hl : sb.Layout) (d : Disk) :
    (∃ d', markImap sb d = (0, d') ∧ ImapOnly sb d d'
      ∧ ∀ m, sb.IsInode m → imapBit d' m = imapBit d m)
    ∨ ∃ n d', markImap sb d = (n, d') ∧ ImapOnly sb d d' ∧ sb.IsInode n ∧ imapBit d n = false
      ∧ ∀ m, sb.IsInode m → imapBit d' m = (imapBit d m || decide (m = n)) := by
  have h1 := hl.table
  have h2 := hl.first
  have honly : ∀ i, i < 32768 * sb.sImapBlocks →
      ImapOnly sb d (setBitAt d Superblock.imapZoneIndex i) := by
    intro i hi b hb
    refine Function.update_of_ne ?_ _ _
    unfold Superblock.zmapStart at hb
    omega
  have hspec := markMap_spec d Superblock.imapZoneIndex
    (Superblock.imapZoneIndex + sb.sImapBlocks) sb.sNinodes (by decide) (by
      unfold Superblock.inodeZoneIndex at h1
      omega)
  rw [Nat.add_sub_cancel_left] at hspec
  rcases hspec with ⟨he, _⟩ | ⟨r, he, hr1, hr2, hr3, _⟩
  · exact Or.inl ⟨d, he, fun b _ => rfl, fun m _ => rfl⟩
  · by_cases hr0 : r = 0
    · subst hr0
      refine Or.inl ⟨_, he, honly 0 hr1, fun m hm => ?_⟩
      unfold Superblock.IsInode at hm
      unfold imapBit
      rw [bitAt_setBitAt, show decide (m = 0) = false from decide_eq_false (by omega),
        Bool.or_false]
    · refine Or.inr ⟨r, _, he, honly r hr1, ⟨by omega, by omega⟩, hr3, fun m _ => ?_⟩
      unfold imapBit
      rw [bitAt_setBitAt]

/-- `unmark_imap` clears the mark of one inode. -/
theorem unmarkImap_spec (hl : sb.Layout) (d : Disk) (hn : sb.IsInode n) :
    ImapOnly sb d (unmarkImap d n)
      ∧ ∀ m, imapBit (unmarkImap d n) m = (imapBit d m && decide (m ≠ n)) := by
  have h1 := hl.table
  have h2 := hl.first
  have h3 := hl.imap
  unfold Superblock.IsInode at hn
  have heq : unmarkImap d n = clearBitAt d Superblock.imapZoneIndex n := by
    refine unmarkMap_eq d ?_
    unfold Superblock.inodeZoneIndex at h1
    omega
  rw [heq]
  refine ⟨fun b hb => ?_, fun m => ?_⟩
  · refine Function.update_of_ne ?_ _ _
    unfold Superblock.zmapStart at hb
    omega
  · unfold imapBit
    rw [bitAt_clearBitAt]

/-! ## The inode table -/

/-- A disk that differs from `d` in the inode table only. -/
def TableOnly (sb : Superblock) (d d' : Disk) : Prop :=
  ∀ b, b < sb.inodeZoneIndex ∨ sb.sFirstdatazone ≤ b → d' b = d b

theorem TableOnly.imapBit (hl : sb.Layout) (h : TableOnly sb d d') (hn : sb.IsInode n) :
    imapBit d' n = imapBit d n :=
  imapBit_congr hl hn fun b hb => h b (Or.inl (Nat.lt_of_lt_of_le hb (zmapStart_le sb)))

theorem TableOnly.zmapBit (hl : sb.Layout) (h : TableOnly sb d d') (hz : sb.IsZone z) :
    zmapBit sb d' z = zmapBit sb d z :=
  zmapBit_congr hl hz fun b _ hb => h b (Or.inl hb)

theorem TableOnly.zone (h : TableOnly sb d d') (hz : sb.sFirstdatazone ≤ z) : d' z = d z :=
  h z (Or.inr hz)

/-- **An inode is read back as it was written, and the others are left alone.** -/
theorem writeInode_spec (hl : sb.Layout) (d : Disk) (hn : sb.IsInode n) (ino : Bytes) :
    TableOnly sb d (writeInode sb d n ino)
      ∧ (∀ x, x < 64 → readInode sb (writeInode sb d n ino) n x = ino x)
      ∧ ∀ m, sb.IsInode m → m ≠ n → readInode sb (writeInode sb d n ino) m = readInode sb d m := by
  obtain ⟨hb, hlt⟩ := inodeBlock_eq hl hn
  have hfirst := hl.first
  have hmod : inodeBlock sb n % 2 ^ 16 = inodeBlock sb n := Nat.mod_eq_of_lt (by omega)
  have heq : writeInode sb d n ino = Function.update d (inodeBlock sb n)
      ((d (inodeBlock sb n)).copy (inodeOffset n) ino 0 64) := by
    unfold writeInode blockWrite blockRead
    rw [hmod]
  refine ⟨fun b hbb => ?_, fun x hx => ?_, fun m hm hne => ?_⟩
  · refine Function.update_of_ne ?_ _ _
    omega
  · rw [heq]
    unfold readInode blockRead
    rw [hmod, Function.update_self]
    unfold Bytes.copy
    rw [if_pos ⟨by omega, by omega⟩, if_pos ⟨by omega, by omega⟩,
      show 0 + (inodeOffset n + (x - 0) - inodeOffset n) = x by omega]
  · obtain ⟨hbm, hltm⟩ := inodeBlock_eq hl hm
    have hmodm : inodeBlock sb m % 2 ^ 16 = inodeBlock sb m := Nat.mod_eq_of_lt (by omega)
    rw [heq]
    unfold readInode blockRead
    rw [hmodm]
    by_cases he : inodeBlock sb m = inodeBlock sb n
    · -- the same block of the table, another 64 bytes of it
      rw [he, Function.update_self]
      funext x
      unfold Bytes.copy
      split
      · rw [if_neg]
        rw [inodeOffset_eq hl hm, inodeOffset_eq hl hn]
        unfold Superblock.IsInode at hm hn
        omega
      · rfl
    · rw [Function.update_of_ne he]

end Cyanurus
