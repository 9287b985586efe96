import Cyanurus.Fs.File

/-!
# The operations on inodes keep the volume in order

`Volume.Inv` is what holds between operations: the allocated inodes own their zones,
and the inodes in memory are allocated ones, one object for each, with the size that
is on disk. `inode_truncate` works on a copy of the inode that it writes back when it
is done; when it gives up the copy is dropped. Either way the inode on disk is one the
zones of which are in order.
-/

namespace Cyanurus

/-- Inode `n` is marked in the inode map. -/
def Allocated (sb : Superblock) (d : Disk) (n : Nat) : Prop := sb.IsInode n ∧ imapBit d n = true

/-- An inode in memory: it is allocated, and has the size that is on disk. -/
def InodeOk (sb : Superblock) (d : Disk) (inode : Inode) : Prop :=
  Allocated sb d inode.index ∧ inode.size = iSize (readInode sb d inode.index)

/-- The volume between operations. -/
structure Volume.Inv (v : Volume) : Prop where
  layout : v.sb.Layout
  small : v.sb.sZones ≤ 2 ^ 16
  zones : Zones v.sb v.disk (Allocated v.sb v.disk) (readInode v.sb v.disk)
  /-- The list `inodes` holds one object for each inode in memory. -/
  mem : v.inodes.Listed v.list Inode.index (InodeOk v.sb v.disk)

variable {v v' : Volume} {p : Nat} {inode : Inode} {d d' : Disk} {ino ino' : Bytes}

theorem Volume.Inv.live (hv : v.Inv) (hp : v.inodes.get p = some inode) :
    InodeOk v.sb v.disk inode := hv.mem.ok hp

/-- What reading a file and writing inside it need: the allocated inodes have zones of their
own, whatever the zone map says. -/
structure Volume.Sited (v : Volume) : Prop where
  layout : v.sb.Layout
  small : v.sb.sZones ≤ 2 ^ 16
  zones : Cyanurus.Sited v.sb v.disk (Allocated v.sb v.disk) (readInode v.sb v.disk)

theorem Volume.Inv.sited (hv : v.Inv) : v.Sited := ⟨hv.layout, hv.small, hv.zones.sited⟩

variable {sb : Superblock} {fuel b n stop zone curStart curSize start : Nat} {ok : Bool}
  {data : Bytes} {R : Volume → Volume → Prop}

theorem allocated_congr
    (h : ∀ m, sb.IsInode m → imapBit d' m = imapBit d m) : Allocated sb d' = Allocated sb d := by
  funext n
  refine propext ⟨fun ha => ⟨ha.1, ?_⟩, fun ha => ⟨ha.1, ?_⟩⟩
  · rw [← h n ha.1]
    exact ha.2
  · rw [h n ha.1]
    exact ha.2

theorem ZoneSide.allocated (hl : sb.Layout) (h : ZoneSide sb d d') :
    Allocated sb d' = Allocated sb d :=
  allocated_congr fun _ hm => h.imapBit hl hm

/-- Another disk with the same allocated inodes. -/
theorem Volume.Inv.redisk (hv : v.Inv) (halloc : Allocated v.sb d = Allocated v.sb v.disk)
    (hread : ∀ n, Allocated v.sb v.disk n → readInode v.sb d n = readInode v.sb v.disk n)
    (hz : Zones v.sb d (Allocated v.sb v.disk) (readInode v.sb v.disk)) :
    Volume.Inv { v with disk := d } := by
  refine ⟨hv.layout, hv.small, ?_, hv.mem.mono fun hp h => ⟨?_, ?_⟩⟩
  · rw [halloc]
    exact (hz.transfer (fun m k hm _ => by rw [hread m hm]) (fun _ _ => rfl) fun _ h => h).2
  · rw [halloc]
    exact h.1
  · rw [h.2, hread _ h.1]

theorem Volume.Inv.disk (hv : v.Inv) (hd : ZoneSide v.sb v.disk d)
    (hz : Zones v.sb d (Allocated v.sb v.disk) (readInode v.sb v.disk)) :
    Volume.Inv { v with disk := d } :=
  hv.redisk (hd.allocated hv.layout) (fun _ hn => hd.readInode hv.layout hn.1) hz

/-- **The end of `inode_truncate`**: the copy that owns its zones is written back. -/
theorem Volume.Inv.finish (hv : v.Inv) (hp : v.inodes.get p = some inode)
    (hd : ZoneSide v.sb v.disk d)
    (hz : Zones v.sb d (Allocated v.sb v.disk)
      (Function.update (readInode v.sb v.disk) inode.index ino))
    (hi : ∀ k, k ≤ 8 → iZone ino' k = iZone ino k) :
    (truncateEnd v p inode.index d ino').Inv
      ∧ Allocated v.sb (truncateEnd v p inode.index d ino').disk
          = Allocated v.sb v.disk
      ∧ ∀ {m k q}, Allocated v.sb v.disk m → IsSlot k q →
          zoneOf (writeInode v.sb d inode.index ino')
            (readInode v.sb (writeInode v.sb d inode.index ino') m) k q
          = zoneOf d (Function.update (readInode v.sb v.disk) inode.index ino m) k q := by
  have hl := hv.layout
  obtain ⟨hidx, hsize⟩ := hv.live hp
  obtain ⟨ht, hself, hother⟩ := writeInode_spec hl d hidx.1 ino'
  have halloc : Allocated v.sb (writeInode v.sb d inode.index ino') = Allocated v.sb v.disk := by
    rw [← hd.allocated hl]
    exact allocated_congr fun _ hm => ht.imapBit hl hm
  have hread : ∀ m, Allocated v.sb v.disk m → m ≠ inode.index →
      readInode v.sb (writeInode v.sb d inode.index ino') m = readInode v.sb v.disk m := by
    intro m hm hne
    rw [hother m hm.1 hne, hd.readInode hl hm.1]
  have hkeep : ∀ z, Marked v.sb d z → writeInode v.sb d inode.index ino' z = d z :=
    fun z hz => ht.zone hz.1.1
  obtain ⟨hslots, hzones⟩ := hz.transfer
    (g := readInode v.sb (writeInode v.sb d inode.index ino')) (fun m k hm hk => by
      by_cases hmn : m = inode.index
      · subst hmn
        rw [Function.update_self, ← hi k hk]
        exact iZone_congr hself (by omega)
      · rw [Function.update_of_ne hmn, hread m hm hmn])
    hkeep fun z hz => ⟨hz.1, by rw [ht.zmapBit hl hz.1]; exact hz.2⟩
  refine ⟨⟨hl, hv.small, ?_, hv.mem.modify hp rfl ⟨?_, ?_⟩ fun {q y} hq hne h => ⟨?_, ?_⟩⟩,
    halloc, hslots⟩
  · show Zones v.sb _ (Allocated v.sb (writeInode v.sb d inode.index ino')) _
    rw [halloc]
    exact hzones
  · show Allocated v.sb (writeInode v.sb d inode.index ino') inode.index
    rw [halloc]
    exact hidx
  · exact (iSize_congr fun x hx => hself x (by omega)).symm
  · show Allocated v.sb (writeInode v.sb d inode.index ino') y.index
    rw [halloc]
    exact h.1
  · rw [h.2]
    exact congrArg iSize (hread _ h.1 hne).symm

/-! ## Truncation -/

/-- The ways `inode_truncate` can go. -/
inductive Truncated (v : Volume) (p : Nat) (inode : Inode) (size : Nat)
    (rest : List (Nat × List Nat)) : Int → Volume → Prop
  | same : size = inode.size → Truncated v p inode size rest 0 v
  /-- No zone is left. -/
  | full {d : Disk} {ino : Bytes} : inode.size < size →
      Grown v.sb (Allocated v.sb v.disk) (readInode v.sb v.disk) inode.index v.disk v.disk
        (readInode v.sb v.disk inode.index) (extendSlots inode.size size) rest false d ino →
      Truncated v p inode size rest enospc { v with disk := d }
  /-- A block to clear is not mapped by the inode on disk. -/
  | gap {d d' : Disk} {ino : Bytes} : inode.size < size →
      Grown v.sb (Allocated v.sb v.disk) (readInode v.sb v.disk) inode.index v.disk v.disk
        (readInode v.sb v.disk inode.index) (extendSlots inode.size size) rest true d ino →
      clearLoop v.sb inode.index size fileRounds d inode.size (size - inode.size) = .ok (false, d') →
      Truncated v p inode size rest enospc { v with disk := d' }
  | grown {d d' : Disk} {ino : Bytes} : inode.size < size →
      Grown v.sb (Allocated v.sb v.disk) (readInode v.sb v.disk) inode.index v.disk v.disk
        (readInode v.sb v.disk inode.index) (extendSlots inode.size size) rest true d ino →
      clearLoop v.sb inode.index size fileRounds d inode.size (size - inode.size) = .ok (true, d') →
      Truncated v p inode size rest 0 (truncateEnd v p inode.index d'
        (if extendStart size < extendStart inode.size then ino else setSize ino size))
  | shrunk {d : Disk} {ino : Bytes} : size < inode.size →
      Shrunk v.sb (Allocated v.sb v.disk) (readInode v.sb v.disk) inode.index v.disk d ino →
      Below v.disk (readInode v.sb v.disk inode.index) (size / blockSize % 2 ^ 16 + 1) d ino →
      Truncated v p inode size rest 0 (truncateEnd v p inode.index d (setSize ino size))

variable {size : Nat} {rest : List (Nat × List Nat)} {r : Int}

/-- A truncation with nothing to follow. -/
theorem no_slots : ∀ s ∈ ([] : List (Nat × List Nat)), IsSlot s.1 s.2 := by simp

theorem inodeTruncate_cases (hv : v.Inv) (hp : v.inodes.get p = some inode)
    (hrest : ∀ s ∈ rest, IsSlot s.1 s.2)
    (hc : inode.size < size → Clean v.disk (hasZone v.disk (readInode v.sb v.disk inode.index))
      (extendSlots inode.size size ++ rest) (freeZones v.sb v.disk))
    (h : inodeTruncate v p size = .ok (r, v')) : Truncated v p inode size rest r v' := by
  obtain ⟨hidx, hsize⟩ := hv.live hp
  unfold inodeTruncate at h
  rw [hp] at h
  simp only [] at h
  split at h
  · rename_i heq
    cases h
    exact Truncated.same heq
  · split at h
    · rename_i hgt
      have hc' := hc hgt
      obtain ⟨ino, hg, hino⟩ := extendZone_grown hv.layout hv.small hidx hrest size
        (Ext.refl hv.zones inode.index) (by rw [← hsize]; exact hc')
      rw [← hsize] at hg hino
      generalize extendZone v.sb v.disk (readInode v.sb v.disk inode.index) size = q at h hg hino
      obtain ⟨ok, d, ino1⟩ := q
      cases ok with
      | false =>
        cases h
        exact Truncated.full hgt hg
      | true =>
        have hino' : ino1 = _ := hino rfl
        subst hino'
        simp only [] at h
        cases hcl : clearLoop v.sb inode.index size fileRounds d inode.size
            (size - inode.size) with
        | error e =>
          rw [hcl] at h
          exact absurd h (by simp [bind, Except.bind])
        | ok q =>
          obtain ⟨ok, d'⟩ := q
          rw [hcl] at h
          cases ok with
          | true =>
            cases h
            exact Truncated.grown hgt hg hcl
          | false =>
            cases h
            exact Truncated.gap hgt hg hcl
    · obtain ⟨ino, hs, hlow, hino⟩ := shrinkZone_shrunk hv.layout hv.small hidx size
        (Shrunk.refl hv.zones inode.index)
      generalize shrinkZone v.sb v.disk (readInode v.sb v.disk inode.index) size = q at h hs hlow hino
      obtain ⟨d, ino1⟩ := q
      have hino' : ino1 = _ := hino
      subst hino'
      cases h
      exact Truncated.shrunk (by omega) hs hlow

/-- The bytes that the loop of `inode_truncate` clears are data of the inode, both of the
inode on disk and of the copy in work. -/
theorem Volume.Inv.cleared (hv : v.Inv) (hp : v.inodes.get p = some inode) {a : Nat}
    (he : Ext v.sb (Allocated v.sb v.disk) (readInode v.sb v.disk) inode.index v.disk d ino)
    (hcl : clearLoop v.sb inode.index size fuel d a b = .ok (ok, d')) :
    DataOnly d d' (readInode v.sb v.disk inode.index)
      ∧ DataOnly d d' (Function.update (readInode v.sb v.disk) inode.index ino inode.index) := by
  have hidx := (hv.live hp).1
  have hside : ZoneSide v.sb v.disk d := he.rest
  have hd := clearLoop_data hv.layout hv.small hidx hidx.1 size fuel he.zones_disk
    (hside.readInode hv.layout hidx.1) hcl
  refine ⟨hd, ?_⟩
  rw [Function.update_self]
  exact hd.mono he.disk

theorem Volume.Inv.cleared_side (hv : v.Inv) (hp : v.inodes.get p = some inode) {a : Nat}
    (he : Ext v.sb (Allocated v.sb v.disk) (readInode v.sb v.disk) inode.index v.disk d ino)
    (hcl : clearLoop v.sb inode.index size fuel d a b = .ok (ok, d')) : ZoneSide v.sb v.disk d' :=
  ZoneSide.trans he.rest
    ((hv.cleared hp he hcl).1.zonesOnly he.zones_disk.sited (hv.live hp).1).zoneSide

/-- **`inode_truncate` keeps the volume in order**, also when it gives up. -/
theorem Truncated.inv (hv : v.Inv) (hp : v.inodes.get p = some inode)
    (ht : Truncated v p inode size rest r v') : v'.Inv := by
  have hidx := (hv.live hp).1
  cases ht with
  | same _ => exact hv
  | full _ hg => exact hv.disk hg.ext.rest hg.ext.zones_disk
  | gap _ hg hcl =>
    exact hv.disk (hv.cleared_side hp hg.ext hcl)
      ((hv.cleared hp hg.ext hcl).1.zones hv.layout hg.ext.zones_disk hidx)
  | grown _ hg hcl =>
    refine (hv.finish hp (hv.cleared_side hp hg.ext hcl)
      ((hv.cleared hp hg.ext hcl).2.zones hv.layout hg.ext.zones hidx) fun k _ => ?_).1
    split
    · rfl
    · exact iZone_setSize ..
  | shrunk _ hs _ => exact (hv.finish hp hs.rest hs.zones fun k _ => iZone_setSize ..).1

/-- What `inode_truncate` leaves alone. -/
theorem Truncated.frame (ht : Truncated v p inode size rest r v') :
    v'.sb = v.sb ∧ v'.list = v.list ∧ v'.inodes.next = v.inodes.next
      ∧ (∀ q, q ≠ p → v'.inodes.get q = v.inodes.get q) := by
  cases ht <;> refine ⟨rfl, rfl, rfl, fun q hq => ?_⟩ <;>
    first | rfl | exact Store.modify_ne hq

/-- The inode on disk after a truncation, with the zones of the copy that was written back. -/
theorem Volume.Inv.written (hv : v.Inv) (hp : v.inodes.get p = some inode)
    {slots : List (Nat × List Nat)}
    (hg : Grown v.sb (Allocated v.sb v.disk) (readInode v.sb v.disk) inode.index v.disk v.disk
      (readInode v.sb v.disk inode.index) slots rest ok d ino)
    (hd : DataOnly d d' (Function.update (readInode v.sb v.disk) inode.index ino inode.index))
    (hi : ∀ k, k ≤ 8 → iZone ino' k = iZone ino k) :
    (∀ {k q}, IsSlot k q → zoneOf (writeInode v.sb d' inode.index ino')
        (readInode v.sb (writeInode v.sb d' inode.index ino') inode.index) k q = zoneOf d ino k q)
      ∧ (∀ {m k q}, Allocated v.sb v.disk m → m ≠ inode.index → IsSlot k q →
          zoneOf (writeInode v.sb d' inode.index ino')
            (readInode v.sb (writeInode v.sb d' inode.index ino') m) k q
          = zoneOf v.disk (readInode v.sb v.disk m) k q)
      ∧ (∀ z, v.sb.IsZone z →
          zmapBit v.sb (writeInode v.sb d' inode.index ino') z = zmapBit v.sb d z) := by
  have hidx := (hv.live hp).1
  have hside : ZoneSide v.sb v.disk d := hg.ext.rest
  have hzonly := hd.zonesOnly hg.ext.zones.sited hidx
  obtain ⟨_, _, hslots⟩ := hv.finish hp (hside.trans hzonly.zoneSide)
    (hd.zones hv.layout hg.ext.zones hidx) hi
  refine ⟨fun {k q} hq => ?_, fun {m k q} hm hne hq => ?_, fun z hz => ?_⟩
  · have h1 := hslots hidx hq
    have h2 := hd.zoneOf_eq hg.ext.zones.sited hidx hidx hq
    rw [Function.update_self] at h1 h2
    rw [h1, h2]
  · have h2 := hd.zoneOf_eq hg.ext.zones.sited hidx hm hq
    rw [Function.update_of_ne hne] at h2
    rw [hslots hm hq, Function.update_of_ne hne, h2]
    exact hg.ext.others hm hne hq
  · rw [(writeInode_spec hv.layout d' hidx.1 ino').1.zmapBit hv.layout hz, hzonly.zmapBit hv.layout hz]

theorem truncateEnd_get (hp : v.inodes.get p = some inode) :
    (truncateEnd v p n d ino).inodes.get p = some { inode with size := iSize ino } := by
  show (v.inodes.modify p _).get p = _
  rw [Store.modify_self, hp]
  rfl

/-- The size `inode_truncate` gives a file that it could grow. -/
def grownSize (old size : Nat) : Nat :=
  if extendStart size < extendStart old then old else size

/-- The copy that is written back has the zones it had, and the size that was asked for
unless the number of blocks wraps around. -/
theorem grown_fields (size old : Nat) (hsize : size < 2 ^ 32) (hold : old = iSize ino) :
    (∀ k, k ≤ 8 → iZone (if extendStart size < extendStart old then ino else setSize ino size) k
        = iZone ino k)
      ∧ iSize (if extendStart size < extendStart old then ino else setSize ino size)
          = grownSize old size := by
  unfold grownSize
  split
  · exact ⟨fun _ _ => rfl, hold.symm⟩
  · exact ⟨fun _ _ => iZone_setSize .., by rw [iSize_setSize, Nat.mod_eq_of_lt hsize]⟩

/-- **After a truncation that went through, the rest of a write is still clean.** -/
theorem Truncated.next (hv : v.Inv) (hp : v.inodes.get p = some inode)
    (hrest : ∀ s ∈ rest, IsSlot s.1 s.2) (hlt : inode.size < size) (hsize : size < 2 ^ 32)
    (ht : Truncated v p inode size rest r v') (hr : 0 ≤ r) :
    ∃ inode', v'.inodes.get p = some inode' ∧ inode'.index = inode.index
      ∧ inode'.size = grownSize inode.size size
      ∧ Clean v'.disk (hasZone v'.disk (readInode v'.sb v'.disk inode.index)) rest
          (freeZones v'.sb v'.disk) := by
  obtain ⟨hidx, hold⟩ := hv.live hp
  cases ht with
  | same heq => omega
  | full _ _ => cases hr
  | gap _ _ _ => cases hr
  | shrunk h _ _ => omega
  | @grown d d' ino _ hg hcl =>
    have hd := (hv.cleared hp hg.ext hcl).2
    obtain ⟨hi, hsz⟩ := grown_fields size inode.size hsize (hold.trans (iSize_congr hg.ext.head).symm)
    generalize (if extendStart size < extendStart inode.size then ino else setSize ino size) = ino'
      at hi hsz
    obtain ⟨hself, _, hmarks⟩ := hv.written hp hg hd hi
    have htab := (writeInode_spec hv.layout d' hidx.1 ino').1
    refine ⟨_, truncateEnd_get hp, rfl, hsz, ?_⟩
    show Clean (writeInode v.sb d' inode.index ino') _ rest
      (freeZones v.sb (writeInode v.sb d' inode.index ino'))
    rw [freeZones_congr hmarks]
    refine (hg.clean rfl).congr (fun s hs => ?_) fun z hz => ?_
    · unfold hasZone
      rw [← hself (hrest s hs)]
      rfl
    · obtain ⟨h1, h2, h3⟩ := mem_freeZones.mp hz
      rw [htab.zone h1, hd.free hg.ext.zones hidx h3, hg.ext.free_zone hv.layout hidx hz]

/-! ## Writing -/

/-- The slots one round of `inode_write` visits by way of `inode_truncate`. -/
def roundSlots (isize next : Nat) : List (Nat × List Nat) :=
  if next > isize then extendSlots isize next else []

/-- The size of the file after the round. -/
def roundSize (isize next : Nat) : Nat := if next > isize then grownSize isize next else isize

/-- The slots `inode_write` visits, round after round. -/
def writeSlots (stop : Nat) : Nat → Nat → Nat → Nat → Nat → List (Nat × List Nat)
  | 0, _, _, _, _ => []
  | fuel + 1, zone, isize, curStart, curSize =>
    if zone > stop then []
    else
      let copy := copySize curStart curSize
      let next := (curStart + copy) % 2 ^ 32
      roundSlots isize next ++ writeSlots stop fuel ((zone + 1) % 2 ^ 16) (roundSize isize next)
        next ((curSize + 2 ^ 32 - copy) % 2 ^ 32)

theorem writeSlots_succ {isize : Nat} (h : zone ≤ stop) :
    writeSlots stop (fuel + 1) zone isize curStart curSize
      = roundSlots isize ((curStart + copySize curStart curSize) % 2 ^ 32)
        ++ writeSlots stop fuel ((zone + 1) % 2 ^ 16)
            (roundSize isize ((curStart + copySize curStart curSize) % 2 ^ 32))
            ((curStart + copySize curStart curSize) % 2 ^ 32)
            ((curSize + 2 ^ 32 - copySize curStart curSize) % 2 ^ 32) := by
  rw [writeSlots, if_neg (by omega)]

theorem writeSlots_isSlot (stop : Nat) : ∀ (fuel : Nat) {zone isize curStart curSize : Nat},
    ∀ s ∈ writeSlots stop fuel zone isize curStart curSize, IsSlot s.1 s.2
  | 0, _, _, _, _, s, hs => absurd hs (by simp [writeSlots])
  | fuel + 1, zone, isize, curStart, curSize, s, hs => by
    by_cases hz : zone ≤ stop
    · rw [writeSlots_succ hz] at hs
      rcases List.mem_append.mp hs with hs | hs
      · unfold roundSlots at hs
        split at hs
        · exact extendSlots_isSlot _ _ s hs
        · cases hs
      · exact writeSlots_isSlot stop fuel s hs
    · rw [writeSlots, if_pos (by omega)] at hs
      cases hs

/-- **A round of `inode_write`**: the file is grown if it has to be, and a block is written. -/
theorem writeLoop_cases {curData : Nat}
    (hp : v.inodes.get p = some inode)
    (h : writeLoop p size stop data (fuel + 1) v zone curData curStart curSize = .ok (r, v')) :
    (zone > stop ∧ r = ssize size ∧ v' = v)
    ∨ (zone ≤ stop ∧ ∃ t w,
        growTo v p inode ((curStart + copySize curStart curSize) % 2 ^ 32) = .ok (t, w)
        ∧ ((t < 0 ∧ v' = w ∧ r = if size = curSize then t else ssize (size - curSize))
          ∨ (0 ≤ t ∧ getBlock w.sb w.disk inode.index zone = 0 ∧ v' = w
              ∧ r = if size = curSize then einval else ssize (size - curSize))
          ∨ (0 ≤ t ∧ getBlock w.sb w.disk inode.index zone ≠ 0
              ∧ curStart % blockSize + copySize curStart curSize ≤ blockSize
              ∧ writeLoop p size stop data fuel
                  { w with disk := (blockWrite w.disk (getBlock w.sb w.disk inode.index zone)
                    ((blockRead w.disk (getBlock w.sb w.disk inode.index zone)).copy
                      (curStart % blockSize) data curData (copySize curStart curSize))) }
                  ((zone + 1) % 2 ^ 16) (curData + copySize curStart curSize)
                  ((curStart + copySize curStart curSize) % 2 ^ 32)
                  ((curSize + 2 ^ 32 - copySize curStart curSize) % 2 ^ 32) = .ok (r, v')))) := by
  rw [writeLoop, hp] at h
  simp only [] at h
  split at h
  · obtain ⟨rfl, rfl⟩ := Prod.mk.inj (Except.ok.inj h)
    exact Or.inl ⟨‹_›, rfl, rfl⟩
  · obtain ⟨⟨t, w⟩, hg, h⟩ := bind_eq_ok h
    refine Or.inr ⟨by omega, t, w, hg, ?_⟩
    split at h
    · cases h
      exact Or.inl ⟨‹_›, rfl, rfl⟩
    · split at h
      · cases h
        exact Or.inr (Or.inl ⟨by omega, ‹_›, rfl, rfl⟩)
      · split at h
        · cases h
        · exact Or.inr (Or.inr ⟨by omega, ‹_›, by omega, h⟩)

/-- **The first round of `inode_write`**, and what follows if it goes through. -/
theorem inodeWrite_cases (hp : v.inodes.get p = some inode)
    (h : inodeWrite v p size start data = .ok (r, v')) :
    ((start + size) % 2 ^ 32 / blockSize % 2 ^ 16 < start / blockSize % 2 ^ 16 ∧ v' = v)
    ∨ (start / blockSize % 2 ^ 16 ≤ (start + size) % 2 ^ 32 / blockSize % 2 ^ 16 ∧ ∃ t w,
        growTo v p inode ((start + copySize start size) % 2 ^ 32) = .ok (t, w)
        ∧ (t < 0 ∧ v' = w ∧ r = t
          ∨ 0 ≤ t ∧ getBlock w.sb w.disk inode.index (start / blockSize % 2 ^ 16) = 0 ∧ v' = w
          ∨ 0 ≤ t ∧ ∃ fuel u curData curStart, writeLoop p size
              ((start + size) % 2 ^ 32 / blockSize % 2 ^ 16) data fuel u
              ((start / blockSize % 2 ^ 16 + 1) % 2 ^ 16) curData curStart
              ((size + 2 ^ 32 - copySize start size) % 2 ^ 32) = .ok (r, v'))) := by
  unfold inodeWrite at h
  simp only [] at h
  split at h
  · cases h
    exact .inl ⟨by omega, rfl⟩
  · rcases writeLoop_cases hp h with ⟨_, _, _⟩ | ⟨hle, t, w, hg, hrest⟩
    · omega
    · refine .inr ⟨hle, t, w, hg, ?_⟩
      rcases hrest with ⟨ht, hw, hr⟩ | ⟨ht, h0, hw, _⟩ | ⟨ht, _, _, hloop⟩
      · exact .inl ⟨ht, hw, by rw [hr, if_pos rfl]⟩
      · exact .inr (.inl ⟨ht, h0, hw⟩)
      · exact .inr (.inr ⟨ht, _, _, _, _, hloop⟩)

/-- A block of a file is written. -/
theorem Volume.Inv.writeBlock (hv : v.Inv) (hp : v.inodes.get p = some inode)
    (hb : b < 2 ^ 16) (h0 : getBlock v.sb v.disk inode.index b ≠ 0) (buf : Bytes) :
    Volume.Inv { v with disk := blockWrite v.disk (getBlock v.sb v.disk inode.index b) buf }
      ∧ DataOnly v.disk (blockWrite v.disk (getBlock v.sb v.disk inode.index b) buf)
          (readInode v.sb v.disk inode.index) := by
  have hidx := (hv.live hp).1
  obtain ⟨hd, hz, _⟩ := dataOnly_write hv.layout hv.small hv.zones hidx hidx.1 rfl hb h0 buf
  exact ⟨hv.disk (hd.zonesOnly hv.zones.sited hidx).zoneSide hz, hd⟩

theorem Volume.Inv.clean_data (hv : v.Inv) (hp : v.inodes.get p = some inode)
    (hd : DataOnly v.disk d (readInode v.sb v.disk inode.index))
    (hrest : ∀ s ∈ rest, IsSlot s.1 s.2)
    (hc : Clean v.disk (hasZone v.disk (readInode v.sb v.disk inode.index)) rest
      (freeZones v.sb v.disk)) :
    Clean d (hasZone d (readInode v.sb d inode.index)) rest (freeZones v.sb d) := by
  have hidx := (hv.live hp).1
  have hzonly := hd.zonesOnly hv.zones.sited hidx
  rw [freeZones_congr fun z hz => hzonly.zmapBit hv.layout hz, hzonly.readInode hv.layout hidx.1]
  refine hc.congr (fun s hs => ?_) fun z hz => hd.free hv.zones hidx (mem_freeZones.mp hz).2.2
  unfold hasZone
  rw [hd.zoneOf_eq hv.zones.sited hidx hidx (hrest s hs)]

/-- A file that is long enough is left alone, the others are truncated to the new end. -/
theorem growTo_cases (hv : v.Inv) (hp : v.inodes.get p = some inode) {next : Nat} {t : Int}
    {w : Volume} (hrest : ∀ s ∈ rest, IsSlot s.1 s.2)
    (hc : Clean v.disk (hasZone v.disk (readInode v.sb v.disk inode.index))
      (roundSlots inode.size next ++ rest) (freeZones v.sb v.disk))
    (h : growTo v p inode next = .ok (t, w)) :
    (next ≤ inode.size ∧ w = v) ∨ (inode.size < next ∧ Truncated v p inode next rest t w) := by
  unfold growTo at h
  unfold roundSlots at hc
  by_cases hlt : next > inode.size
  · rw [if_pos hlt] at h hc
    exact .inr ⟨hlt, inodeTruncate_cases hv hp hrest (fun _ => hc) h⟩
  · rw [if_neg hlt] at h
    cases h
    exact .inl ⟨by omega, rfl⟩

theorem growTo_inv (hv : v.Inv) (hp : v.inodes.get p = some inode) {next : Nat} {t : Int}
    {w : Volume} (hnext : next < 2 ^ 32) (hrest : ∀ s ∈ rest, IsSlot s.1 s.2)
    (hc : Clean v.disk (hasZone v.disk (readInode v.sb v.disk inode.index))
      (roundSlots inode.size next ++ rest) (freeZones v.sb v.disk))
    (h : growTo v p inode next = .ok (t, w)) :
    w.Inv ∧ (0 ≤ t → ∃ inode', w.inodes.get p = some inode' ∧ inode'.index = inode.index
      ∧ inode'.size = roundSize inode.size next
      ∧ Clean w.disk (hasZone w.disk (readInode w.sb w.disk inode.index)) rest
          (freeZones w.sb w.disk)) := by
  unfold roundSize
  rcases growTo_cases hv hp hrest hc h with ⟨hle, rfl⟩ | ⟨hlt, ht⟩
  · have hnot : ¬ next > inode.size := by omega
    rw [roundSlots, if_neg hnot] at hc
    rw [if_neg hnot]
    exact ⟨hv, fun _ => ⟨inode, hp, rfl, rfl, hc⟩⟩
  · rw [if_pos hlt]
    exact ⟨ht.inv hv hp, ht.next hv hp hrest hlt hnext⟩

theorem copySize_le (start size : Nat) : copySize start size ≤ size := by
  unfold copySize
  simp only []
  split
  · omega
  · exact Nat.le_refl _

/-- A relation that every step of a write to inode `n` at `p` has, where the file grows to
`limit` at most. -/
structure WriteRule (R : Volume → Volume → Prop) (p n limit : Nat) : Prop where
  refl : ∀ v, R v v
  trans : ∀ {u v w}, R u v → R v w → R u w
  grow : ∀ {v w inode rest size r}, v.Inv → v.inodes.get p = some inode → inode.index = n →
    size ≤ limit → Truncated v p inode size rest r w → R v w
  block : ∀ {v inode b} (buf : Bytes), v.Inv → v.inodes.get p = some inode → inode.index = n →
    b < 2 ^ 16 → getBlock v.sb v.disk inode.index b ≠ 0 →
    R v { v with disk := blockWrite v.disk (getBlock v.sb v.disk inode.index b) buf }

/-- The indirect zones that a write of `inode_write` is going to take are clear. -/
def Volume.CleanWrite (v : Volume) (inode : Inode) (start size : Nat) : Prop :=
  Clean v.disk (hasZone v.disk (readInode v.sb v.disk inode.index))
    (writeSlots ((start + size) % 2 ^ 32 / blockSize % 2 ^ 16) fileRounds
      (start / blockSize % 2 ^ 16) inode.size start size) (freeZones v.sb v.disk)

/-- The first round of a clean write, and slots that are filled later. -/
theorem Volume.CleanWrite.round (h : v.CleanWrite inode start size)
    (hle : start / blockSize % 2 ^ 16 ≤ (start + size) % 2 ^ 32 / blockSize % 2 ^ 16) :
    ∃ rest : List (Nat × List Nat), (∀ s ∈ rest, IsSlot s.1 s.2)
      ∧ Clean v.disk (hasZone v.disk (readInode v.sb v.disk inode.index))
          (roundSlots inode.size ((start + copySize start size) % 2 ^ 32) ++ rest)
          (freeZones v.sb v.disk) := by
  unfold Volume.CleanWrite at h
  rw [show fileRounds = fileRounds - 1 + 1 from rfl, writeSlots_succ hle] at h
  exact ⟨_, writeSlots_isSlot _ _, h⟩

/--
**The rule for the loop of `inode_write`**: what holds from each growth and from each block
that is written, and is transitive, holds from the loop as a whole, wherever it stops. No
growth goes beyond `limit`.
-/
theorem writeLoop_rel {limit : Nat} (hR : WriteRule R p n limit)
    (size stop : Nat) (data : Bytes) : ∀ (fuel : Nat) {v v' : Volume}
    {inode : Inode} {zone curData curStart curSize : Nat} {r : Int}, v.Inv →
    v.inodes.get p = some inode → inode.index = n → zone < 2 ^ 16 → curStart + curSize ≤ limit →
    Clean v.disk (hasZone v.disk (readInode v.sb v.disk inode.index))
      (writeSlots stop fuel zone inode.size curStart curSize) (freeZones v.sb v.disk) →
    writeLoop p size stop data fuel v zone curData curStart curSize = .ok (r, v') → v'.Inv ∧ R v v'
  | 0, _, _, _, _, _, _, _, _, _, _, _, _, _, _, h => absurd h (by simp [writeLoop])
  | fuel + 1, v, v', inode, zone, curData, curStart, curSize, r, hv, hp, hn, hzone, hlim, hc, h => by
    rcases writeLoop_cases hp h with ⟨_, _, rfl⟩ | ⟨hle, t, w, hgr, hrest⟩
    · exact ⟨hv, hR.refl _⟩
    · rw [writeSlots_succ hle] at hc
      have hcopy := copySize_le curStart curSize
      generalize copySize curStart curSize = copy at hc hgr hrest hcopy
      have hslots := @writeSlots_isSlot stop fuel
      obtain ⟨hw, hnext⟩ := growTo_inv hv hp (Nat.mod_lt _ (by decide)) hslots hc hgr
      have hvw : R v w := by
        rcases growTo_cases hv hp hslots hc hgr with ⟨_, rfl⟩ | ⟨_, ht⟩
        · exact hR.refl _
        · exact hR.grow hv hp hn (by omega) ht
      rcases hrest with ⟨_, rfl, _⟩ | ⟨_, _, rfl, _⟩ | ⟨ht, h0, _, hloop⟩
      · exact ⟨hw, hvw⟩
      · exact ⟨hw, hvw⟩
      · obtain ⟨inode', hp', hidx, hsize, hc'⟩ := hnext ht
        rw [← hidx] at h0 hc' hloop hn
        obtain ⟨hw', hd⟩ := hw.writeBlock hp' hzone h0
          ((blockRead w.disk (getBlock w.sb w.disk inode'.index zone)).copy
            (curStart % blockSize) data curData copy)
        rw [← hsize] at hc'
        obtain ⟨hinv, hR'⟩ := writeLoop_rel hR size stop data fuel hw' hp' hn
          (Nat.mod_lt _ (by decide)) (by omega) (hw.clean_data hp' hd hslots hc') hloop
        exact ⟨hinv, hR.trans hvw (hR.trans (hR.block _ hw hp' hn hzone h0) hR')⟩

/-- The same for `inode_write`. -/
theorem inodeWrite_rel (hv : v.Inv) (hp : v.inodes.get p = some inode)
    (hR : WriteRule R p inode.index (start + size)) (hc : v.CleanWrite inode start size)
    (h : inodeWrite v p size start data = .ok (r, v')) : v'.Inv ∧ R v v' := by
  unfold inodeWrite at h
  simp only [] at h
  split at h
  · cases h
    exact ⟨hv, hR.refl v⟩
  · exact writeLoop_rel hR size _ data fileRounds hv hp rfl
      (Nat.mod_lt _ (by decide)) (Nat.le_refl _) hc h

/-- **`inode_write` keeps the volume in order.** -/
theorem inodeWrite_inv (hv : v.Inv) (hp : v.inodes.get p = some inode)
    (hc : v.CleanWrite inode start size)
    (h : inodeWrite v p size start data = .ok (r, v')) : v'.Inv :=
  (inodeWrite_rel (R := fun _ _ => True) hv hp ⟨fun _ => trivial, fun _ _ => trivial,
    fun _ _ _ _ _ => trivial, fun _ _ _ _ _ _ => trivial⟩ hc h).1

end Cyanurus
