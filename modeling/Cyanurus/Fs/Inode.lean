import Cyanurus.Lib.Store
import Cyanurus.Fs.Bitmap
import Cyanurus.Mem.Buddy

/-!
# Inodes

`src/kernel/inode.c` over the block layer. A `struct minix2_inode` is its 64 bytes,
and a field is the word at its offset; `i_zone[k]` is `iZone ino k`. An in-memory
`struct inode` is an object of a store, `list` is the list `inodes`.

Numbers are natural numbers cut to their width where the source stores or passes
them: a `block_index` has 16 bits, a `size_t` has 32. Page buffers are local values.
The loops that walk a file are bounded by a number of rounds they cannot need
unless they do not end (`Halt.stuck`); a copy past the end of a buffer is
`Halt.fault`.
-/

namespace Cyanurus

/-- The fields of `struct minix3_superblock` that the kernel uses. -/
structure Superblock where
  sNinodes : Nat
  sImapBlocks : Nat
  sZmapBlocks : Nat
  sFirstdatazone : Nat
  sZones : Nat
deriving DecidableEq, Repr

/-- `struct inode` -/
structure Inode where
  index : Nat
  mode : Nat
  nlinks : Nat
  size : Nat
deriving DecidableEq, Repr

/-- The mounted volume: superblock, device, and the inodes in memory. -/
structure Volume where
  sb : Superblock
  disk : Disk
  inodes : Store Inode
  list : List Nat

def enospc : Int := -28
def einval : Int := -22

namespace Superblock

/-- `ZMAP_LIMITS`, a 32-bit difference. -/
def zmapLimits (sb : Superblock) : Nat := (sb.sZones + 2 ^ 32 - sb.sFirstdatazone) % 2 ^ 32

/-- `IMAP_ZONE_INDEX` -/
def imapZoneIndex : Nat := 2

/-- The first block of the zone map. -/
def zmapStart (sb : Superblock) : Nat := imapZoneIndex + sb.sImapBlocks

/-- `INODE_ZONE_INDEX` -/
def inodeZoneIndex (sb : Superblock) : Nat := imapZoneIndex + sb.sImapBlocks + sb.sZmapBlocks

end Superblock

/-! ## Fields of the on-disk inode -/

/-- `INODES_PER_BLOCK` -/
def inodesPerBlock : Nat := 64

/-- `ZONES_PER_BLOCK` -/
def zonesPerBlock : Nat := 1024

def iMode (ino : Bytes) : Nat := ino.load 2 0
def iNlinks (ino : Bytes) : Nat := ino.load 2 2
def iSize (ino : Bytes) : Nat := ino.load 4 8
def iZone (ino : Bytes) (k : Nat) : Nat := ino.load 4 (24 + 4 * k)

def setMode (ino : Bytes) (v : Nat) : Bytes := ino.store 2 0 v
def setNlinks (ino : Bytes) (v : Nat) : Bytes := ino.store 2 2 v
def setSize (ino : Bytes) (v : Nat) : Bytes := ino.store 4 8 v
def setZone (ino : Bytes) (k v : Nat) : Bytes := ino.store 4 (24 + 4 * k) v

/-- Word `j` of a block of zone numbers. -/
def zoneWord (zones : Bytes) (j : Nat) : Nat := zones.load 4 (4 * j)

/-! ## The maps -/

/-- `mark_imap` -/
def markImap (sb : Superblock) (d : Disk) : Nat × Disk :=
  markMap d Superblock.imapZoneIndex (Superblock.imapZoneIndex + sb.sImapBlocks) sb.sNinodes

/-- `unmark_imap` -/
def unmarkImap (d : Disk) (index : Nat) : Disk := unmarkMap d index Superblock.imapZoneIndex

/-- `mark_zmap`: the index is a `block_index` when it comes back from `mark_map`. -/
def markZmap (sb : Superblock) (d : Disk) : Nat × Disk :=
  let (index, d) := markMap d sb.zmapStart (sb.zmapStart + sb.sZmapBlocks) sb.zmapLimits
  if index % 2 ^ 16 = 0 then (0, d)
  else ((index % 2 ^ 16 + sb.sFirstdatazone - 1) % 2 ^ 16, d)

/-- `unmark_zmap`, whose argument is a `block_index`. -/
def unmarkZmap (sb : Superblock) (d : Disk) (zone : Nat) : Disk :=
  let index := zone % 2 ^ 16
  if index < sb.sFirstdatazone then d
  else unmarkMap d (index - sb.sFirstdatazone + 1) sb.zmapStart

/-! ## The inode table -/

/-- The block of the inode table that holds inode `index`. -/
def inodeBlock (sb : Superblock) (index : Nat) : Nat :=
  sb.inodeZoneIndex + (index + 2 ^ 32 - 1) % 2 ^ 32 / inodesPerBlock % 2 ^ 16

/-- The offset of inode `index` in its block. -/
def inodeOffset (index : Nat) : Nat := (index + 2 ^ 32 - 1) % 2 ^ 32 % inodesPerBlock * 64

/-- `read_inode` -/
def readInode (sb : Superblock) (d : Disk) (index : Nat) : Bytes :=
  Bytes.copy (fun _ => 0) 0 (blockRead d (inodeBlock sb index)) (inodeOffset index) 64

/-- `write_inode` -/
def writeInode (sb : Superblock) (d : Disk) (index : Nat) (ino : Bytes) : Disk :=
  blockWrite d (inodeBlock sb index)
    ((blockRead d (inodeBlock sb index)).copy (inodeOffset index) ino 0 64)

/-! ## Zones of a file -/

/-- The slot of `i_zone` a block hangs under. -/
def zoneSlot (block : Nat) : Nat :=
  if block ≤ 6 then block else if block < 7 + zonesPerBlock then 7 else 8

/-- `if (!inode->i_zone[z0]) inode->i_zone[z0] = mark_zmap();` -/
def fillRoot (sb : Superblock) (d : Disk) (ino : Bytes) (z0 : Nat) : Disk × Bytes :=
  if iZone ino z0 = 0 then
    let (z, d) := markZmap sb d
    (d, setZone ino z0 z)
  else (d, ino)

/--
`block_read(z1, zones); if (!zones[z2]) { zones[z2] = mark_zmap(); .. block_write(z1, zones); }`.
Returns `zones[z2]`; nothing is written when no zone is left.
-/
def fillWord (sb : Superblock) (d : Disk) (z1 z2 : Nat) : Nat × Disk :=
  let zones := blockRead d z1
  if zoneWord zones z2 = 0 then
    let (z, d) := markZmap sb d
    if z = 0 then (0, d) else (z, blockWrite d z1 (zones.store 4 (4 * z2) z))
  else (zoneWord zones z2, d)

/-- One round of the loop of `extend_zone`; `false` is the jump to `fail`. -/
def extendBlock (sb : Superblock) (d : Disk) (ino : Bytes) (block : Nat) : Bool × Disk × Bytes :=
  let z0 := zoneSlot block
  let (d, ino) := fillRoot sb d ino z0
  if iZone ino z0 = 0 then (false, d, ino)
  else if z0 = 7 then
    let (z, d) := fillWord sb d (iZone ino 7) (block - 7)
    (z ≠ 0, d, ino)
  else if z0 = 8 then
    let (z, d) := fillWord sb d (iZone ino 8) ((block - (7 + zonesPerBlock)) / zonesPerBlock)
    if z = 0 then (false, d, ino)
    else
      let (z, d) := fillWord sb d z ((block - (7 + zonesPerBlock)) % zonesPerBlock)
      (z ≠ 0, d, ino)
  else (true, d, ino)

/-- The loop of `extend_zone` over `n` blocks from `block` on. -/
def extendLoop (sb : Superblock) : Disk → Bytes → Nat → Nat → Bool × Disk × Bytes
  | d, ino, _, 0 => (true, d, ino)
  | d, ino, block, n + 1 =>
    match extendBlock sb d ino block with
    | (true, d, ino) => extendLoop sb d ino (block + 1) n
    | (false, d, ino) => (false, d, setSize ino (block * blockSize))

/-- The first block `extend_zone` adds to a file of `size` bytes; also the end of its loop. -/
def extendStart (size : Nat) : Nat := (size / blockSize + 1) % 2 ^ 16

/-- `extend_zone`; `false` is `-ENOSPC`. -/
def extendZone (sb : Superblock) (d : Disk) (ino : Bytes) (size : Nat) : Bool × Disk × Bytes :=
  let start := extendStart (iSize ino)
  let stop := extendStart size
  if stop < start then (true, d, ino)
  else
    match extendLoop sb d ino start (stop - start) with
    | (true, d, ino) => (true, d, setSize ino size)
    | r => r

/-- One round of the loop of `shrink_zone`. -/
def shrinkBlock (sb : Superblock) (d : Disk) (ino : Bytes) (block : Nat) : Disk × Bytes :=
  let z0 := zoneSlot block
  if iZone ino z0 = 0 then (d, ino)
  else if z0 = 7 then
    let z1 := iZone ino 7
    let z2 := block - 7
    let zones0 := blockRead d z1
    if zoneWord zones0 z2 = 0 then (d, ino)
    else
      let d := unmarkZmap sb d (zoneWord zones0 z2)
      let d := blockWrite d z1 (zones0.store 4 (4 * z2) 0)
      if z2 = 0 then (unmarkZmap sb d (iZone ino 7), setZone ino 7 0) else (d, ino)
  else if z0 = 8 then
    let z1 := iZone ino 8
    let z2 := (block - (7 + zonesPerBlock)) / zonesPerBlock
    let zones0 := blockRead d z1
    if zoneWord zones0 z2 = 0 then (d, ino)
    else
      let z3 := zoneWord zones0 z2
      let z4 := (block - (7 + zonesPerBlock)) % zonesPerBlock
      let zones1 := blockRead d z3
      if zoneWord zones1 z4 = 0 then (d, ino)
      else
        let d := unmarkZmap sb d (zoneWord zones1 z4)
        let d := blockWrite d z3 (zones1.store 4 (4 * z4) 0)
        if z4 = 0 then
          let d := unmarkZmap sb d (zoneWord zones0 z2)
          let d := blockWrite d z1 (zones0.store 4 (4 * z2) 0)
          if z2 = 0 then (unmarkZmap sb d (iZone ino 8), setZone ino 8 0) else (d, ino)
        else (d, ino)
  else (unmarkZmap sb d (iZone ino z0), setZone ino z0 0)

/-- The loop of `shrink_zone` over the `n` blocks above `stop`, the last one first. -/
def shrinkLoop (sb : Superblock) (stop : Nat) : Disk → Bytes → Nat → Disk × Bytes
  | d, ino, 0 => (d, ino)
  | d, ino, n + 1 =>
    let (d, ino) := shrinkBlock sb d ino (stop + (n + 1))
    shrinkLoop sb stop d ino n

/-- `shrink_zone` -/
def shrinkZone (sb : Superblock) (d : Disk) (ino : Bytes) (size : Nat) : Disk × Bytes :=
  let start := iSize ino / blockSize % 2 ^ 16
  let stop := size / blockSize % 2 ^ 16
  let (d, ino) := shrinkLoop sb stop d ino (start - stop)
  (d, setSize ino size)

/-- `get_block` on the inode numbered `index`. -/
def getBlock (sb : Superblock) (d : Disk) (index block : Nat) : Nat :=
  let ino := readInode sb d index
  let z0 := zoneSlot block
  if iZone ino z0 = 0 then 0
  else if z0 = 7 then zoneWord (blockRead d (iZone ino 7)) (block - 7) % 2 ^ 16
  else if z0 = 8 then
    let z := zoneWord (blockRead d (iZone ino 8)) ((block - (7 + zonesPerBlock)) / zonesPerBlock)
    if z = 0 then 0
    else zoneWord (blockRead d z) ((block - (7 + zonesPerBlock)) % zonesPerBlock) % 2 ^ 16
  else iZone ino z0 % 2 ^ 16

/-! ## Inodes in memory -/

/-- Is `p` the in-memory inode with this index? -/
def hasIndex (v : Volume) (index p : Nat) : Bool :=
  match v.inodes.get p with
  | some inode => inode.index == index
  | none => false

/-- `get_inode` -/
def getInode (v : Volume) (index : Nat) : Nat × Volume :=
  match v.list.find? (hasIndex v index) with
  | some p => (p, v)
  | none =>
    (v.inodes.next,
      { v with inodes := v.inodes.alloc ⟨index, 0, 0, 0⟩, list := v.inodes.next :: v.list })

/-- `release_inode` -/
def releaseInode (v : Volume) (p : Nat) : Volume :=
  { v with inodes := v.inodes.free p, list := v.list.erase p }

/-- `inode_create`: the new inode, or `none` when no inode or no zone is left. -/
def inodeCreate (v : Volume) (mode : Nat) : Option Nat × Volume :=
  let (index, d) := markImap v.sb v.disk
  if index = 0 then (none, { v with disk := d })
  else
    let (z, d) := markZmap v.sb d
    if z = 0 then (none, { v with disk := unmarkImap d index })
    else
      let ino := setZone (setMode (fun _ => 0) mode) 0 z
      let (p, v) := getInode { v with disk := writeInode v.sb d index ino } index
      (some p, { v with inodes := v.inodes.modify p fun i => { i with mode := mode } })

/-- `inode_get` -/
def inodeGet (v : Volume) (index : Nat) : Nat × Volume :=
  let ino := readInode v.sb v.disk index
  let (p, v) := getInode v index
  (p, { v with inodes := v.inodes.modify p fun i =>
    { i with mode := iMode ino, size := iSize ino, nlinks := iNlinks ino } })

/-- `inode_set` -/
def inodeSet (v : Volume) (p : Nat) : Except Halt Volume :=
  match v.inodes.get p with
  | none => .error .fault
  | some inode =>
    let ino := readInode v.sb v.disk inode.index
    let ino := setNlinks (setSize (setMode ino inode.mode) inode.size) inode.nlinks
    .ok { v with disk := writeInode v.sb v.disk inode.index ino }

/-! ## Data -/

/-- `calculate_block_copy_size` -/
def copySize (start size : Nat) : Nat :=
  let offset := start % blockSize
  if (offset + size) % 2 ^ 32 > blockSize then blockSize - offset else size

/-- More rounds than any loop over a file can make. -/
def fileRounds : Nat := 2 ^ 21

/-- The loop of `inode_truncate` that clears the new bytes; `false` is `-ENOSPC`. -/
def clearLoop (sb : Superblock) (index size : Nat) :
    Nat → Disk → Nat → Nat → Except Halt (Bool × Disk)
  | 0, _, _, _ => .error .stuck
  | fuel + 1, d, tstart, tsize =>
    if tsize = 0 then .ok (true, d)
    else
      let toffset := tstart % blockSize
      let tcopy := copySize tstart tsize
      let block := getBlock sb d index (tstart / blockSize % 2 ^ 16)
      if block = 0 then .ok (false, d)
      else if toffset + tcopy > blockSize then .error .fault
      else
        let d := blockWrite d block ((blockRead d block).fill toffset tcopy 0)
        let tstart := (tstart + tcopy) % 2 ^ 32
        let tsize := (tsize + 2 ^ 32 - tcopy) % 2 ^ 32
        if (tstart + tsize) % 2 ^ 32 ≠ size then .error .bug
        else clearLoop sb index size fuel d tstart tsize

/-- The end of `inode_truncate`: the new size goes to memory and to disk. -/
def truncateEnd (v : Volume) (p index : Nat) (d : Disk) (ino : Bytes) : Volume :=
  { v with
    disk := writeInode v.sb d index ino
    inodes := v.inodes.modify p fun i => { i with size := iSize ino } }

/-- `inode_truncate` -/
def inodeTruncate (v : Volume) (p size : Nat) : Except Halt (Int × Volume) :=
  match v.inodes.get p with
  | none => .error .fault
  | some inode =>
    if size = inode.size then .ok (0, v)
    else
      let ino := readInode v.sb v.disk inode.index
      if size > inode.size then
        match extendZone v.sb v.disk ino size with
        | (false, d, _) => .ok (enospc, { v with disk := d })
        | (true, d, ino) => do
            let (ok, d) ← clearLoop v.sb inode.index size fileRounds d inode.size
              (size - inode.size)
            if ok then .ok (0, truncateEnd v p inode.index d ino)
            else .ok (enospc, { v with disk := d })
      else
        let (d, ino) := shrinkZone v.sb v.disk ino size
        .ok (0, truncateEnd v p inode.index d ino)

/-- `inode_destroy`, which returns 0 whatever `inode_truncate` says. -/
def inodeDestroy (v : Volume) (p : Nat) : Except Halt Volume := do
  let (_, v) ← inodeTruncate v p 0
  match v.inodes.get p with
  | none => .error .fault
  | some inode =>
    let ino := readInode v.sb v.disk inode.index
    let d := unmarkZmap v.sb v.disk (iZone ino 0)
    let d := writeInode v.sb d inode.index fun _ => 0
    .ok (releaseInode { v with disk := unmarkImap d inode.index } p)

/-- A `size_t` returned as `ssize_t`. -/
def ssize (n : Nat) : Int := (n : Int).bmod (2 ^ 32)

/-- `if ((cur_start + copy) > inode->size) r = inode_truncate(inode, cur_start + copy);` -/
def growTo (v : Volume) (p : Nat) (inode : Inode) (size : Nat) : Except Halt (Int × Volume) :=
  if size > inode.size then inodeTruncate v p size else .ok (0, v)

/-- The loop of `inode_write`; the counter of blocks wraps at 16 bits. -/
def writeLoop (p size stop : Nat) (data : Bytes) :
    Nat → Volume → Nat → Nat → Nat → Nat → Except Halt (Int × Volume)
  | 0, _, _, _, _, _ => .error .stuck
  | fuel + 1, v, zone, curData, curStart, curSize =>
    if zone > stop then .ok (ssize size, v)
    else
      match v.inodes.get p with
      | none => .error .fault
      | some inode => do
          let offset := curStart % blockSize
          let copy := copySize curStart curSize
          let (r, v) ← growTo v p inode ((curStart + copy) % 2 ^ 32)
          let block := getBlock v.sb v.disk inode.index zone
          if r < 0 then .ok (if size = curSize then r else ssize (size - curSize), v)
          else if block = 0 then .ok (if size = curSize then einval else ssize (size - curSize), v)
          else if offset + copy > blockSize then .error .fault
          else
            let d := blockWrite v.disk block
              ((blockRead v.disk block).copy offset data curData copy)
            writeLoop p size stop data fuel { v with disk := d } ((zone + 1) % 2 ^ 16)
              (curData + copy) ((curStart + copy) % 2 ^ 32) ((curSize + 2 ^ 32 - copy) % 2 ^ 32)

/-- `inode_write` -/
def inodeWrite (v : Volume) (p size start : Nat) (data : Bytes) : Except Halt (Int × Volume) :=
  let first := start / blockSize % 2 ^ 16
  let stop := (start + size) % 2 ^ 32 / blockSize % 2 ^ 16
  if stop < first then .ok (-1, v)
  else writeLoop p size stop data fileRounds v first 0 start size

/-- The loop of `inode_read`, which fills `out`. -/
def readLoop (sb : Superblock) (d : Disk) (index stop : Nat) :
    Nat → Nat → Nat → Nat → Nat → Bytes → Except Halt Bytes
  | 0, _, _, _, _, _ => .error .stuck
  | fuel + 1, zone, curData, curStart, curSize, out =>
    if zone > stop then .ok out
    else
      let offset := curStart % blockSize
      let copy := copySize curStart curSize
      let block := getBlock sb d index zone
      let buf := if block = 0 then fun _ => 0 else blockRead d block
      if offset + copy > blockSize then .error .fault
      else
        readLoop sb d index stop fuel ((zone + 1) % 2 ^ 16) (curData + copy)
          ((curStart + copy) % 2 ^ 32) ((curSize + 2 ^ 32 - copy) % 2 ^ 32)
          (out.copy curData buf offset copy)

/-- `inode_read`: the number of bytes and the buffer. -/
def inodeRead (v : Volume) (p size start : Nat) (out : Bytes) : Except Halt (Int × Bytes) :=
  match v.inodes.get p with
  | none => .error .fault
  | some inode =>
    if inode.size ≤ start then .ok (0, out)
    else
      let size := if inode.size < (start + size) % 2 ^ 32 then inode.size - start else size
      let first := start / blockSize % 2 ^ 16
      let stop := (start + size) % 2 ^ 32 / blockSize % 2 ^ 16
      (readLoop v.sb v.disk inode.index stop fileRounds first 0 start size out).map
        fun out => (ssize size, out)

end Cyanurus
