import Cyanurus.Fs.Write
import Cyanurus.Fs.Release

/-!
# Overwriting a file

`inode_write` inside a file that maps all its blocks up to the last one. Nothing is asked of
the zone map: no zone is taken, and the zones of the file are known from the inode alone. It
is enough that the allocated inodes have zones of their own (`Volume.Sited`), so that the
writes to data zones of one file are seen in its bytes and nowhere else.

The loops of `inode_write` and `inode_read` cut a range into blocks in the same way; a range
that ends at the end of a block has one more round for the block behind it, which copies
nothing.
-/

namespace Cyanurus

variable {v w : Volume} {p y n : Nat} {inode : Inode} {data : Bytes} {d : Disk}

/-! ## One round -/

/-- Data of a file is written. -/
theorem Volume.Sited.dataOnly (hv : v.Sited) (hn : Allocated v.sb v.disk n)
    (hd : DataOnly v.disk d (readInode v.sb v.disk n)) :
    Volume.Sited { v with disk := d } ∧ Allocated v.sb d = Allocated v.sb v.disk
      ∧ ∀ {m}, v.sb.IsInode m → readInode v.sb d m = readInode v.sb v.disk m := by
  have hzonly := hd.zonesOnly hv.zones hn
  have halloc := hzonly.zoneSide.allocated hv.layout
  have hread : ∀ {m}, v.sb.IsInode m → readInode v.sb d m = readInode v.sb v.disk m :=
    fun hm => hzonly.readInode hv.layout hm
  refine ⟨⟨hv.layout, hv.small, ?_⟩, halloc, hread⟩
  rw [halloc]
  refine (hd.sited hv.zones hn).congr (fun {s q} hq => ?_) fun _ h => h
  rw [follow_zoneRoot, follow_zoneRoot, hread hq.1.1]

/-- What a write to a block of the file is to its zones. -/
theorem Volume.Sited.writeAt (hv : v.Sited) (hn : Allocated v.sb v.disk inode.index) {b : Nat}
    (hb : b < 2 ^ 16) (h0 : v.Mapped inode.index b) (off : Nat) (data : Bytes) (cur copy : Nat) :
    getBlock v.sb v.disk inode.index b ≠ 0
      ∧ DataOnly v.disk (v.writeAt inode.index b off data cur copy).disk
          (readInode v.sb v.disk inode.index) := by
  have hget := getBlock_eq hv.layout hv.small hv.zones hn rfl hb
  have hlt : blockZone v.disk (readInode v.sb v.disk inode.index) b < 2 ^ 16 :=
    ((hv.zones.isZone hn (blockSlot hb).1 h0).bounds hv.layout hv.small).1
  refine ⟨by rw [hget]; exact h0, ?_⟩
  unfold Volume.writeAt
  rw [hget, blockWrite_zone hlt]
  exact dataOnly_update hb h0 _

/-! ## The loop -/

/-- Bytes `i < k` of `src` stand in the file from `start` on; on the disk only data of the file
differs. -/
structure Replaced (v : Volume) (n start k : Nat) (src : Nat → UInt8) (d : Disk) : Prop where
  data : DataOnly v.disk d (readInode v.sb v.disk n)
  bytes : ∀ {y}, y < maxOffset → byteAt d (readInode v.sb v.disk n) y
    = if start ≤ y ∧ y < start + k then some (src (y - start))
      else byteAt v.disk (readInode v.sb v.disk n) y

/-- A round writes the bytes of one block. -/
theorem Replaced.block (hv : v.Sited) (hn : Allocated v.sb v.disk inode.index) {start copy : Nat}
    (hb : start / blockSize < 2 ^ 16) (h0 : v.Mapped inode.index (start / blockSize))
    (hfit : start % blockSize + copy ≤ blockSize) (data : Bytes) (cur : Nat) :
    Replaced v inode.index start copy (fun i => data (cur + i))
      (v.writeAt inode.index (start / blockSize) (start % blockSize) data cur copy).disk := by
  refine ⟨(hv.writeAt hn hb h0 _ data cur copy).2, fun {y} hy => ?_⟩
  rw [writeAt_byteAt hv hn hb h0 _ data cur copy hy]
  have h1 := Nat.div_add_mod start blockSize
  have h2 := Nat.div_add_mod y blockSize
  by_cases hr : start ≤ y ∧ y < start + copy
  · have hdiv : y / blockSize = start / blockSize := by
      unfold blockSize at *
      omega
    rw [hdiv] at h2
    rw [if_pos hr, if_pos ⟨hdiv, by omega, by omega⟩,
      show y % blockSize - start % blockSize = y - start by omega]
  · rw [if_neg hr, if_neg]
    rintro ⟨hdiv, h3, h4⟩
    rw [hdiv] at h2
    omega

/-- Bytes written after the ones that are written already. -/
theorem Replaced.append (hv : v.Sited) (hn : Allocated v.sb v.disk n) {start k l : Nat}
    {src : Nat → UInt8} {d' : Disk} (h : Replaced v n start k src d)
    (h' : Replaced { v with disk := d } n (start + k) l (fun i => src (k + i)) d') :
    Replaced v n start (k + l) src d' := by
  have hread := (hv.dataOnly hn h.data).2.2 hn.1
  obtain ⟨hdata, hbytes⟩ := h'
  simp only [hread] at hdata hbytes
  refine ⟨h.data.trans hv.zones hn hdata, fun {y} hy => ?_⟩
  rw [hbytes hy, h.bytes hy]
  by_cases h1 : start ≤ y ∧ y < start + k
  · rw [if_neg (by omega), if_pos h1, if_pos (by omega)]
  · by_cases h2 : start + k ≤ y ∧ y < start + k + l
    · rw [if_pos h2, if_pos (by omega), show k + (y - (start + k)) = y - start by omega]
    · rw [if_neg h2, if_neg h1, if_neg (by omega)]

/-- **The loop of `inode_write` inside a file.** -/
theorem writeLoop_inside (size stop : Nat) (data : Bytes) (hsize : inode.size < maxSize) :
    ∀ (fuel curData : Nat) {v : Volume} {zone curStart curSize : Nat}, v.Sited →
    v.inodes.get p = some inode → Allocated v.sb v.disk inode.index →
    (∀ b, b ≤ inode.size / blockSize → v.Mapped inode.index b) →
    curStart + curSize ≤ inode.size →
    OnRound stop zone curStart curSize → stop + 2 ≤ zone + fuel →
    ∃ d, writeLoop p size stop data fuel v zone curData curStart curSize
        = .ok (ssize size, { v with disk := d })
      ∧ Replaced v inode.index curStart curSize (fun i => data (curData + i)) d
  | 0, curData, v, zone, curStart, curSize, _, _, _, _, hin, hzone, hfuel => by
    have := hzone.round (by omega)
    omega
  | fuel + 1, curData, v, zone, curStart, curSize, hv, hp, hn, hmap, hin, hzone, hfuel => by
    rcases hzone.round (by omega) with ⟨hs, hz⟩ | ⟨hle, hz, hnext⟩
    · rw [writeLoop_stop (by omega)]
      refine ⟨v.disk, rfl, DataOnly.refl _ _, fun _ => ?_⟩
      rw [if_neg (by omega)]
    · have hblock : zone ≤ inode.size / blockSize := by
        rw [hz]
        exact Nat.div_le_div_right (by omega)
      have hb : zone < 2 ^ 16 := Nat.lt_of_le_of_lt hblock (block_lt (by
        have : maxSize + blockSize = maxOffset := rfl
        omega))
      obtain ⟨hcopy, hfit, _, hm1, hm2, hm3, _⟩ := round_arith (show curStart + curSize < maxSize by omega)
      rw [← hz] at hm3
      have hgrow : growTo v p inode ((curStart + copySize curStart curSize) % 2 ^ 32) = .ok (0, v) := by
        unfold growTo
        rw [if_neg (by omega)]
      rw [hz] at hb hblock hnext
      have h0 := hmap _ hblock
      have hne := (hv.writeAt hn hb h0 (curStart % blockSize) data curData
        (copySize curStart curSize)).1
      have hround := Replaced.block hv hn hb h0 hfit data curData
      rw [writeLoop_next hp (by omega) hgrow (Int.le_refl 0) (by rw [hz]; exact hne) hfit, hm1, hm2, hm3,
        hz]
      generalize copySize curStart curSize = copy at hcopy hnext hround ⊢
      obtain ⟨hv', halloc, hread⟩ := hv.dataOnly hn hround.data
      have hsame : ∀ b, b ≤ inode.size / blockSize → (v.writeAt inode.index (curStart / blockSize)
          (curStart % blockSize) data curData copy).Mapped inode.index b := by
        intro b hb'
        show blockZone _ (readInode v.sb _ inode.index) b ≠ 0
        rw [hread hn.1]
        refine fun hzero => hmap b hb' (Eq.trans ?_ hzero)
        exact (hround.data.zoneOf_eq hv.zones hn hn (blockSlot (Nat.lt_of_le_of_lt hb' (block_lt (by
          have : maxSize + blockSize = maxOffset := rfl
          omega)))).1).symm
      have hend : curStart + copy + (curSize - copy) = curStart + curSize := by omega
      obtain ⟨d, hrun, hrest⟩ := writeLoop_inside size stop data hsize fuel (curData + copy)
        hv' hp (by rw [halloc]; exact hn) hsame (by rw [hend]; exact hin) hnext (by omega)
      refine ⟨d, hrun, ?_⟩
      rw [show curSize = copy + (curSize - copy) by omega]
      refine hround.append hv hn ?_
      simp only [← Nat.add_assoc]
      exact hrest

/-! ## The whole file -/

/-- The bytes that `inode_read` finds afterwards. -/
theorem Replaced.readAt (hv : v.Sited) (hn : Allocated v.sb v.disk n) {start k : Nat}
    {src : Nat → UInt8} (h : Replaced v n start k src d) (hy : y < maxOffset) :
    Volume.readAt { v with disk := d } n y
      = if start ≤ y ∧ y < start + k then src (y - start) else v.readAt n y := by
  unfold Volume.readAt Volume.fileAt
  simp only [(hv.dataOnly hn h.data).2.2 hn.1]
  rw [h.bytes hy]
  split <;> rfl

/-- **`inode_write` inside a file.** -/
theorem inodeWrite_inside (hv : v.Sited) (hp : v.inodes.get p = some inode)
    (hn : Allocated v.sb v.disk inode.index) (hsize : inode.size < maxSize)
    (hmap : ∀ b, b ≤ inode.size / blockSize → v.Mapped inode.index b) {start size : Nat}
    (hin : start + size ≤ inode.size) (data : Bytes) :
    ∃ d, inodeWrite v p size start data = .ok (size, { v with disk := d })
      ∧ Replaced v inode.index start size data d := by
  obtain ⟨hfirst, hstop, hfuel⟩ := range_arith (Nat.lt_of_le_of_lt hin hsize)
  have hle : start / blockSize ≤ (start + size) / blockSize :=
    Nat.div_le_div_right (Nat.le_add_right _ _)
  obtain ⟨d, hrun, hover⟩ := writeLoop_inside (p := p) size ((start + size) / blockSize) data hsize
    fileRounds 0 hv hp hn hmap hin (Or.inl ⟨rfl, rfl⟩) hfuel
  simp only [Nat.zero_add] at hover
  refine ⟨d, ?_, hover⟩
  unfold inodeWrite
  simp only [hfirst, hstop]
  rw [if_neg (by omega), hrun, ssize_small (by omega)]

/-- **Overwriting is exact**: `inode_write` inside a file returns the number of bytes; afterwards
`inode_read` finds the new bytes in the range and the old ones outside; the other files, the
sizes and the bitmaps are as they were. -/
theorem overwrite_exact (hv : v.Sited) (hp : v.inodes.get p = some inode)
    (hn : Allocated v.sb v.disk inode.index) (hsize : inode.size < maxSize)
    (hmap : ∀ b, b ≤ inode.size / blockSize → v.Mapped inode.index b) {start size : Nat}
    (hin : start + size ≤ inode.size) (data : Bytes) :
    ∃ w, inodeWrite v p size start data = .ok (size, w)
      ∧ w.inodes.get p = some inode
      ∧ (∀ pos len out, pos + len < 2 ^ 32 → ∃ old,
          inodeRead v p len pos out = .ok ((min len (inode.size - pos) : Nat), old)
          ∧ inodeRead w p len pos out = .ok ((min len (inode.size - pos) : Nat), fun x =>
              if x < min len (inode.size - pos) ∧ start ≤ pos + x ∧ pos + x < start + size
              then data (pos + x - start) else old x))
      ∧ (∀ m, Allocated v.sb v.disk m → w.sizeOf m = v.sizeOf m
          ∧ (m ≠ inode.index → ∀ y, y < maxOffset → w.fileAt m y = v.fileAt m y))
      ∧ ∀ b, b < v.sb.sFirstdatazone → w.disk b = v.disk b := by
  have hmax : maxSize + blockSize = maxOffset := rfl
  obtain ⟨d, hwrite, hover⟩ := inodeWrite_inside hv hp hn hsize hmap hin data
  obtain ⟨hw, halloc, hread⟩ := hv.dataOnly hn hover.data
  refine ⟨_, hwrite, hp, fun pos len out hlen => ?_, fun m hm => ⟨?_, fun hne y hy => ?_⟩,
    hover.data.zonesOnly hv.zones hn⟩
  · refine ⟨_, inodeRead_eq hv hp hn hsize hlen out, ?_⟩
    rw [inodeRead_eq hw hp (by rw [halloc]; exact hn) hsize hlen out]
    refine congrArg Except.ok (Prod.ext rfl (funext fun x => ?_))
    by_cases hx : x < min len (inode.size - pos)
    · simp only [hx, true_and]
      exact hover.readAt hv hn (by omega)
    · simp only [hx, false_and, if_false]
  · unfold Volume.sizeOf
    simp only [hread hm.1]
  · unfold Volume.fileAt
    simp only [hread hm.1]
    exact hover.data.byteAt hv.zones hn hm hne hy

theorem twoBlocks_allocated {m : Nat} : Allocated twoBlocks.sb twoBlocks.disk m ↔ m = 1 := by
  have hbits : ∀ m, m ≤ 63 → 1 ≤ m → (imapBit twoBlocks.disk m = true ↔ m = 1) := by decide
  constructor
  · rintro ⟨⟨h1, h2⟩, hm⟩
    exact (hbits m h2 h1).mp hm
  · rintro rfl
    exact ⟨⟨by decide, by decide⟩, by decide⟩

theorem twoBlocks_sited : twoBlocks.Sited where
  layout := volumeOf_layout
  small := by decide
  zones := (twoBlocks_filled.zones.restrict fun _ hm => twoBlocks_allocated.mp hm).sited

/-- Ten bytes across the border of the two blocks of a file. -/
theorem overwrite_exact_border : ∃ w, inodeWrite twoBlocks 0 10 4090 (fun i => UInt8.ofNat i) = .ok (10, w)
    ∧ w.inodes.get 0 = some ⟨1, 0, 0, 5000⟩ := by
  obtain ⟨w, hw, hget, _⟩ := overwrite_exact twoBlocks_sited twoBlocks_filled.get
    (twoBlocks_allocated.mpr rfl) (by decide) (fun b hb => (twoBlocks_filled.tree (blockSlot
      (Nat.lt_of_le_of_lt hb (by decide))).1).mpr ⟨b, hb, rfl, List.suffix_refl _⟩)
    (show 4090 + 10 ≤ 5000 by decide) fun i => UInt8.ofNat i
  exact ⟨w, hw, hget⟩

end Cyanurus
