import Cyanurus.Fs.Superblock

/-!
# How often the loops go round

The loops of `inode_read` and `inode_write` count blocks in a `block_index` of 16 bits and go
on while it is at most the number of the last block, `(start + size) / BLOCK_SIZE` cut to 16
bits. The model gives a loop a number of rounds and says `Halt.stuck` when they do not
suffice; a loop ends if some number of rounds does.

If the last block is not block 65535, the counter passes it before it wraps. If it is, the
condition `ind_zone <= ind_end` holds of every counter: `inode_read` never comes out of its
loop, and `inode_write` only through an error. (What remains is a request whose offset in the
first block and size do not fit into 32 bits: its first copy runs past the buffer.)
-/

namespace Cyanurus

variable {sb : Superblock} {d : Disk} {v : Volume} {inode : Inode} {data out : Bytes}
variable {p index size start stop zone cur curStart curSize n : Nat}

/-- `ind_start` -/
def firstBlock (start : Nat) : Nat := start / blockSize % 2 ^ 16

/-- `ind_end` -/
def lastBlock (start size : Nat) : Nat := (start + size) % 2 ^ 32 / blockSize % 2 ^ 16

/-- The request goes up to block 65535, and its first copy stays in the buffer. -/
def Endless (start size : Nat) : Prop :=
  lastBlock start size = 65535 ∧ start % blockSize + size < 2 ^ 32

theorem firstBlock_lt (start : Nat) : firstBlock start < 2 ^ 16 := Nat.mod_lt _ (by decide)

theorem lastBlock_lt (start size : Nat) : lastBlock start size < 2 ^ 16 := Nat.mod_lt _ (by decide)

/-- A step after another one: the whole ends if both do. -/
theorem bind_ends {α β : Type} {x : Except Halt α} {f : α → Except Halt β}
    (hx : x ≠ .error .stuck) (hf : ∀ a, f a ≠ .error .stuck) : x >>= f ≠ .error .stuck := by
  cases x with
  | error e => exact fun he => hx (congrArg _ (Except.error.inj he))
  | ok a => exact hf a

/-! ## One round -/

/-- A copy that starts in the buffer without a wrap stays in it, and so does the next one. -/
theorem copySize_inside (h : curStart % blockSize + curSize < 2 ^ 32) :
    curStart % blockSize + copySize curStart curSize ≤ blockSize
    ∧ (curStart + copySize curStart curSize) % 2 ^ 32 % blockSize
        + (curSize + 2 ^ 32 - copySize curStart curSize) % 2 ^ 32 < 2 ^ 32 := by
  unfold copySize
  simp only []
  unfold blockSize at *
  split <;> omega

/-- With a wrap the copy leaves the buffer. -/
theorem copySize_outside (hsize : curSize < 2 ^ 32) (h : 2 ^ 32 ≤ curStart % blockSize + curSize) :
    blockSize < curStart % blockSize + copySize curStart curSize := by
  unfold copySize
  simp only []
  unfold blockSize at *
  split <;> omega

/-! ## The loop of `inode_read` -/

/-- Before block 65535 the counter passes the last block. -/
theorem readLoop_ends (sb : Superblock) (d : Disk) (index : Nat) (hstop : stop < 65535) :
    ∀ (n zone cur curStart curSize : Nat) (out : Bytes), zone < 2 ^ 16 → 0 < n →
      stop + 2 ≤ zone + n → readLoop sb d index stop n zone cur curStart curSize out ≠ .error .stuck
  | 0, _, _, _, _, _, _, h, _ => absurd h (Nat.lt_irrefl 0)
  | n + 1, zone, cur, curStart, curSize, out, hz, _, hn => by
    rw [readLoop]
    split
    · exact nofun
    · simp only []
      split
      · exact nofun
      · have hnext : (zone + 1) % 2 ^ 16 = zone + 1 := Nat.mod_eq_of_lt (by omega)
        exact readLoop_ends sb d index hstop n _ _ _ _ _ (by omega) (by omega) (by omega)

/-- At block 65535 it does not. -/
theorem readLoop_endless (sb : Superblock) (d : Disk) (index : Nat) :
    ∀ (n zone cur curStart curSize : Nat) (out : Bytes), zone < 2 ^ 16 →
      curStart % blockSize + curSize < 2 ^ 32 →
      readLoop sb d index 65535 n zone cur curStart curSize out = .error .stuck
  | 0, _, _, _, _, _, _, _ => rfl
  | n + 1, zone, cur, curStart, curSize, out, hz, hfit => by
    obtain ⟨hin, hnext⟩ := copySize_inside hfit
    rw [readLoop, if_neg (by omega)]
    rw [if_neg (by omega)]
    exact readLoop_endless sb d index n _ _ _ _ _ (Nat.mod_lt _ (by decide)) hnext

/-- A copy that runs past the buffer does not return. -/
theorem readLoop_outside (hz : zone ≤ stop) (hsize : curSize < 2 ^ 32)
    (h : 2 ^ 32 ≤ curStart % blockSize + curSize) :
    readLoop sb d index stop 1 zone cur curStart curSize out = .error .fault := by
  have hout := copySize_outside hsize h
  rw [readLoop, if_neg (by omega)]
  rw [if_pos hout]

/-- How many bytes are asked for, cut at the end of the file. -/
def clipped (inode : Inode) (size start : Nat) : Nat :=
  if inode.size < (start + size) % 2 ^ 32 then inode.size - start else size

/-- The loop of `inode_read` with at most `n` rounds. -/
def readRounds (v : Volume) (inode : Inode) (size start : Nat) (out : Bytes) (n : Nat) :
    Except Halt Bytes :=
  readLoop v.sb v.disk inode.index (lastBlock start (clipped inode size start)) n
    (firstBlock start) 0 start (clipped inode size start) out

/-- `inode_read` returns at once, or after some number of rounds. -/
def ReadEnds (v : Volume) (inode : Inode) (size start : Nat) (out : Bytes) : Prop :=
  inode.size ≤ start ∨ ∃ n, readRounds v inode size start out n ≠ .error .stuck

/-- **The loop of `inode_read` ends unless the request is endless**, whatever the disk. -/
theorem readEnds_iff_clipped (hi : inode.size < 2 ^ 32) (hsize : size < 2 ^ 32)
    (h : start < inode.size) :
    ReadEnds v inode size start out ↔ ¬ Endless start (clipped inode size start) := by
  have hclip : clipped inode size start < 2 ^ 32 := by
    unfold clipped
    split <;> omega
  have hfirst := firstBlock_lt start
  have hlast := lastBlock_lt start (clipped inode size start)
  constructor
  · rintro (h' | ⟨n, hn⟩) ⟨hlast', hfit⟩
    · omega
    · unfold readRounds at hn
      rw [hlast'] at hn
      exact hn (readLoop_endless _ _ _ n _ _ _ _ _ hfirst hfit)
  · intro hend
    refine Or.inr ?_
    by_cases hl : lastBlock start (clipped inode size start) = 65535
    · refine ⟨1, ?_⟩
      unfold readRounds
      rw [readLoop_outside (by omega) hclip (by unfold Endless at hend; omega)]
      exact nofun
    · exact ⟨2 ^ 17, readLoop_ends _ _ _ (by omega) _ _ _ _ _ _ hfirst (by omega) (by omega)⟩

/-! ## The loop of `inode_write` -/

/-- The loop of `inode_truncate` that clears bytes ends: it counts bytes, in 32 bits. -/
theorem clearLoop_ends (sb : Superblock) (index size : Nat) :
    ∀ (n : Nat) (d : Disk) (tstart tsize : Nat), tsize < 2 ^ 32 → 0 < n →
      (tsize ≠ 0 → (tstart % blockSize + tsize) / blockSize + 2 ≤ n) →
      clearLoop sb index size n d tstart tsize ≠ .error .stuck
  | 0, _, _, _, _, h, _ => absurd h (Nat.lt_irrefl 0)
  | n + 1, d, tstart, tsize, ht, _, hn => by
    rw [clearLoop]
    split
    · exact nofun
    · rename_i ht0
      simp only []
      split
      · exact nofun
      · split
        · exact nofun
        · rename_i hin
          split
          · exact nofun
          · have hround : ((tsize + 2 ^ 32 - copySize tstart tsize) % 2 ^ 32 ≠ 0 →
                ((tstart + copySize tstart tsize) % 2 ^ 32 % blockSize
                  + (tsize + 2 ^ 32 - copySize tstart tsize) % 2 ^ 32) / blockSize + 2 ≤ n)
                ∧ 0 < n := by
              unfold copySize at hin ⊢
              simp only [] at hin ⊢
              unfold blockSize at *
              split <;> omega
            exact clearLoop_ends sb index size n _ _ _ (Nat.mod_lt _ (by decide)) hround.2 hround.1

/-- So `inode_truncate` ends. -/
theorem inodeTruncate_ends (v : Volume) (p : Nat) (hsize : size < 2 ^ 32) :
    inodeTruncate v p size ≠ .error .stuck := by
  unfold inodeTruncate
  split
  · exact nofun
  · rename_i inode _
    split
    · exact nofun
    · simp only []
      split
      · split
        · exact nofun
        · rename_i d ino _
          have hclear := clearLoop_ends v.sb inode.index size fileRounds d inode.size
            (size - inode.size) (by omega) (by decide)
            (fun _ => by unfold fileRounds blockSize; omega)
          refine bind_ends hclear fun r => ?_
          split <;> exact nofun
      · exact nofun

theorem growTo_ends (v : Volume) (p : Nat) (inode : Inode) (hsize : size < 2 ^ 32) :
    growTo v p inode size ≠ .error .stuck := by
  unfold growTo
  split
  · exact inodeTruncate_ends v p hsize
  · exact nofun

/-- **Before block 65535 the counter passes the last block**, also when the file grows. -/
theorem writeLoop_ends (p size : Nat) (data : Bytes) (hstop : stop < 65535) :
    ∀ (n : Nat) (v : Volume) (zone cur curStart curSize : Nat), zone < 2 ^ 16 → 0 < n →
      stop + 2 ≤ zone + n →
      writeLoop p size stop data n v zone cur curStart curSize ≠ .error .stuck
  | 0, _, _, _, _, _, _, h, _ => absurd h (Nat.lt_irrefl 0)
  | n + 1, v, zone, cur, curStart, curSize, hz, _, hn => by
    rw [writeLoop]
    split
    · exact nofun
    · split
      · exact nofun
      · rename_i hle _ inode _
        have hgrow := growTo_ends v p inode
          (Nat.mod_lt (curStart + copySize curStart curSize) (Nat.two_pow_pos 32))
        refine bind_ends hgrow fun ⟨r, w⟩ => ?_
        simp only []
        split
        · exact nofun
        · split
          · exact nofun
          · split
            · exact nofun
            · exact writeLoop_ends p size data hstop n _ _ _ _ _ (by omega) (by omega) (by omega)

/-- A round whose copy runs past the buffer is the last one. -/
theorem writeLoop_outside (hz : zone ≤ stop) (hsize : curSize < 2 ^ 32)
    (h : 2 ^ 32 ≤ curStart % blockSize + curSize) :
    writeLoop p size stop data 1 v zone cur curStart curSize ≠ .error .stuck := by
  rw [writeLoop, if_neg (by omega)]
  split
  · exact nofun
  · rename_i inode _
    have hout := copySize_outside hsize h
    have hgrow := growTo_ends v p inode
      (Nat.mod_lt (curStart + copySize curStart curSize) (Nat.two_pow_pos 32))
    refine bind_ends hgrow fun ⟨r, w⟩ => ?_
    simp only []
    split
    · exact nofun
    · split <;> exact nofun

/-- The loop of `inode_write` with at most `n` rounds. -/
def writeRounds (v : Volume) (p size start : Nat) (data : Bytes) (n : Nat) :
    Except Halt (Int × Volume) :=
  writeLoop p size (lastBlock start size) data n v (firstBlock start) 0 start size

/-- `inode_write` returns at once, or after some number of rounds. -/
def WriteEnds (v : Volume) (p size start : Nat) (data : Bytes) : Prop :=
  lastBlock start size < firstBlock start ∨ ∃ n, writeRounds v p size start data n ≠ .error .stuck

theorem writeEnds_of_not_endless (hsize : size < 2 ^ 32) (h : ¬ Endless start size) (v : Volume)
    (p : Nat) (data : Bytes) : WriteEnds v p size start data := by
  have hfirst := firstBlock_lt start
  have hlast := lastBlock_lt start size
  refine Or.inr ?_
  by_cases hl : lastBlock start size = 65535
  · exact ⟨1, writeLoop_outside (by omega) hsize (by unfold Endless at h; omega)⟩
  · exact ⟨2 ^ 17, writeLoop_ends _ _ _ (by omega) _ _ _ _ _ _ hfirst (by omega) (by omega)⟩

/-! ## A file that is mapped everywhere -/

/-- A block all of whose words are `w`. -/
def wordBlock (w : Nat) : Bytes := fun x => UInt8.ofNat (w / 256 ^ (x % 4))

theorem wordBlock_load {w : Nat} (hw : w < 2 ^ 32) (j : Nat) : (wordBlock w).load 4 (4 * j) = w := by
  have hbyte : ∀ k, k < 4 → (wordBlock w (4 * j + k)).toNat = w / 256 ^ k % 256 := by
    intro k hk
    unfold wordBlock
    rw [Nat.mul_add_mod, Nat.mod_eq_of_lt hk, UInt8.toNat_ofNat']
  have h0 := hbyte 0 (by decide)
  have h1 := hbyte 1 (by decide)
  have h2 := hbyte 2 (by decide)
  have h3 := hbyte 3 (by decide)
  simp only [Bytes.load, Nat.add_assoc, Nat.reduceAdd, Nat.add_zero] at *
  omega

/-- A disk on which every block of inode 1 is zone 257, by way of 300 or of 301 and 302. -/
def mappedDisk : Disk := fun b =>
  if b = 4 then setZone (setZone (setSize (wordBlock 257) (2 ^ 32 - 1)) 7 300) 8 301
  else if b = 300 ∨ b = 302 then wordBlock 257
  else if b = 301 then wordBlock 302
  else fun _ => 0

/-- A disk that differs in the contents of the file only. -/
def SameMapping (d : Disk) : Prop := ∀ b, b ≠ 257 → d b = mappedDisk b

theorem SameMapping.write (h : SameMapping d) (buf : Bytes) : SameMapping (blockWrite d 257 buf) := by
  intro b hb
  exact (Function.update_of_ne hb _ _).trans (h b hb)

theorem SameMapping.iZone (h : SameMapping d) {k : Nat} (hk : k < 10) :
    iZone (readInode (volumeOf 4096 1) d 1) k = if k = 7 then 300 else if k = 8 then 301 else 257 := by
  -- inode 1 lies at the start of block 4
  have hino : Cyanurus.iZone (readInode (volumeOf 4096 1) d 1) k = Cyanurus.iZone (mappedDisk 4) k := by
    refine iZone_congr (fun x hx => ?_) hk
    rw [← h 4 (by decide)]
    unfold readInode Bytes.copy
    rw [if_pos ⟨Nat.zero_le x, by omega⟩]
    exact congrArg (d 4) (Nat.zero_add (x - 0))
  rw [hino]
  show Cyanurus.iZone (setZone (setZone (setSize (wordBlock 257) (2 ^ 32 - 1)) 7 300) 8 301) k = _
  by_cases h8 : k = 8
  · subst h8
    exact iZone_setZone_self _ 8 301
  rw [iZone_setZone_ne _ _ h8]
  by_cases h7 : k = 7
  · subst h7
    exact iZone_setZone_self _ 7 300
  rw [iZone_setZone_ne _ _ h7, iZone_setSize, if_neg h7, if_neg h8]
  unfold Cyanurus.iZone
  rw [show 24 + 4 * k = 4 * (6 + k) by omega, wordBlock_load (by decide)]

/-- **Every block of the file is mapped.** -/
theorem SameMapping.getBlock (h : SameMapping d) (b : Nat) :
    getBlock (volumeOf 4096 1) d 1 b = 257 := by
  have hword : ∀ j, zoneWord (wordBlock 257) j = 257 := wordBlock_load (by decide)
  have hinner : ∀ j, zoneWord (wordBlock 302) j = 302 := wordBlock_load (by decide)
  have hslot : zoneSlot b < 10 := by
    unfold zoneSlot
    split <;> [omega; split <;> omega]
  have h300 : blockRead d 300 = wordBlock 257 := h 300 (by decide)
  have h301 : blockRead d 301 = wordBlock 302 := h 301 (by decide)
  have h302 : blockRead d 302 = wordBlock 257 := h 302 (by decide)
  unfold Cyanurus.getBlock
  simp only [h.iZone hslot, h.iZone (show 7 < 10 by decide), h.iZone (show 8 < 10 by decide)]
  simp only [if_true, h300, h301, hword, hinner, h302, Nat.reduceEqDiff, if_false]
  split <;> [rfl; split <;> rfl]

/-- A volume with that file in memory; its size leaves nothing to grow. -/
structure Volume.FullyMapped (v : Volume) (p : Nat) (inode : Inode) : Prop where
  sb : v.sb = volumeOf 4096 1
  disk : SameMapping v.disk
  get : v.inodes.get p = some inode
  index : inode.index = 1
  size : inode.size = 2 ^ 32 - 1

/-- **A write up to block 65535 of that file does not end**: no round fails, and no round is
the last one. -/
theorem writeLoop_endless (p size : Nat) (data : Bytes) :
    ∀ (n : Nat) {v : Volume} {inode : Inode} (zone cur curStart curSize : Nat),
      v.FullyMapped p inode → zone < 2 ^ 16 → curStart % blockSize + curSize < 2 ^ 32 →
      writeLoop p size 65535 data n v zone cur curStart curSize = .error .stuck
  | 0, _, _, _, _, _, _, _, _, _ => rfl
  | n + 1, v, inode, zone, cur, curStart, curSize, hv, hz, hfit => by
    obtain ⟨hin, hnext⟩ := copySize_inside hfit
    have hblock : getBlock v.sb v.disk inode.index zone = 257 := by
      rw [hv.sb, hv.index]
      exact hv.disk.getBlock zone
    have hgrow : growTo v p inode ((curStart + copySize curStart curSize) % 2 ^ 32) = .ok (0, v) := by
      unfold growTo
      rw [hv.size, if_neg (by omega)]
    rw [writeLoop, if_neg (by omega), hv.get]
    simp only []
    rw [hgrow]
    simp only [bind, Except.bind, hblock]
    rw [if_neg (by decide), if_neg (by decide), if_neg (by omega)]
    exact writeLoop_endless p size data n _ _ _ _
      ⟨hv.sb, hv.disk.write _, hv.get, hv.index, hv.size⟩ (Nat.mod_lt _ (by decide)) hnext

/-- An inode of an image, as `inode_get` brings it into memory. -/
def loaded (sb : Superblock) (d : Disk) (index : Nat) : Nat × Volume :=
  inodeGet { sb := sb, disk := d, inodes := .empty, list := [] } index

/-- The file of `mappedDisk` in memory. -/
def mappedInode : Inode :=
  let ino := readInode (volumeOf 4096 1) mappedDisk 1
  { index := 1, mode := iMode ino, nlinks := iNlinks ino, size := iSize ino }

theorem loaded_fullyMapped :
    (loaded (volumeOf 4096 1) mappedDisk 1).2.FullyMapped (loaded (volumeOf 4096 1) mappedDisk 1).1
      mappedInode where
  sb := rfl
  disk := fun _ _ => rfl
  get := rfl
  index := rfl
  size := by decide

/-! ## Which requests end -/

/-- **The loops of `inode_read` and `inode_write` end on every image exactly if the request does
not reach up to block 65535.** For `inode_read` this is so of every single image; `inode_write`
may also come out of its loop through an error. -/
theorem file_loops_end_iff (hsize : size < 2 ^ 32) :
    (∀ (v : Volume) (inode : Inode) (out : Bytes), inode.size < 2 ^ 32 →
      (ReadEnds v inode size start out
        ↔ inode.size ≤ start ∨ ¬ Endless start (clipped inode size start)))
    ∧ ((∀ (v : Volume) (p : Nat) (data : Bytes), WriteEnds v p size start data)
        ↔ ¬ Endless start size) := by
  refine ⟨fun v inode out hi => ?_, fun h hend => ?_, fun h v p data =>
    writeEnds_of_not_endless hsize h v p data⟩
  · by_cases hs : inode.size ≤ start
    · exact ⟨fun _ => Or.inl hs, fun _ => Or.inl hs⟩
    · rw [readEnds_iff_clipped hi hsize (by omega)]
      exact ⟨Or.inr, fun h => h.resolve_left hs⟩
  · have hfirst := firstBlock_lt start
    obtain ⟨hlast, hfit⟩ := hend
    rcases h _ _ (fun _ => 0) with h' | ⟨n, hn⟩
    · omega
    · unfold writeRounds at hn
      rw [hlast] at hn
      exact hn (writeLoop_endless _ _ _ n _ _ _ _ loaded_fullyMapped hfirst hfit)

/-- One byte of block 65535 of a large file. -/
theorem file_loops_endless : ¬ ∀ (sb : Superblock) (d : Disk) (index size start : Nat)
    (data out : Bytes) (inode : Inode), size < 2 ^ 32 → start < 2 ^ 32 →
    (loaded sb d index).2.inodes.get (loaded sb d index).1 = some inode →
    ReadEnds (loaded sb d index).2 inode size start out
      ∧ WriteEnds (loaded sb d index).2 (loaded sb d index).1 size start data := by
  intro h
  have hread := (h (volumeOf 4096 1) mappedDisk 1 1 0x0ffff000 (fun _ => 0) (fun _ => 0) mappedInode
    (by decide) (by decide) rfl).1
  rw [readEnds_iff_clipped (by decide) (by decide) (by decide)] at hread
  exact hread ⟨by decide, by decide⟩

/-- A request of one byte at the start. -/
theorem file_loops_end_one :
    (∀ (v : Volume) (inode : Inode) (out : Bytes), inode.size < 2 ^ 32 →
      (ReadEnds v inode 1 0 out ↔ inode.size ≤ 0 ∨ ¬ Endless 0 (clipped inode 1 0)))
    ∧ ((∀ (v : Volume) (p : Nat) (data : Bytes), WriteEnds v p 1 0 data) ↔ ¬ Endless 0 1) :=
  file_loops_end_iff (by decide)

end Cyanurus
