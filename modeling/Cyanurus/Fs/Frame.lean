import Cyanurus.Fs.Content

/-!
# What an operation on one inode leaves alone

`inode_truncate`, `inode_write` and `inode_set` change one inode, its zones and its object.
`Volume.Edits` says what stays: the other inodes with all their blocks, which inodes are
allocated, the fields of the inode before its size, and the objects in memory up to sizes and
link counts. Unlike `Volume.Keeps` it holds of every way these operations can go.
-/

namespace Cyanurus

/-- A file has the same zones, and its data is the same. -/
structure ZonesKept (d d' : Disk) (ino : Bytes) : Prop where
  slot : ∀ {k p}, IsSlot k p → zoneOf d' ino k p = zoneOf d ino k p
  data : ∀ {k p}, IsSlot k p → p.length = k - 6 → zoneOf d ino k p ≠ 0 →
    d' (zoneOf d ino k p) = d (zoneOf d ino k p)

variable {sb : Superblock} {d d' d'' d₀ : Disk} {A : Nat → Prop} {f : Nat → Bytes}
  {ino ino' : Bytes} {n m y b : Nat}

namespace ZonesKept

theorem refl (d : Disk) (ino : Bytes) : ZonesKept d d ino := ⟨fun _ => rfl, fun _ _ _ => rfl⟩

theorem trans (h : ZonesKept d d' ino) (h' : ZonesKept d' d'' ino) : ZonesKept d d'' ino := by
  refine ⟨fun hs => (h'.slot hs).trans (h.slot hs), fun {k p} hs hlen h0 => ?_⟩
  have hdata := h'.data hs hlen (by rw [h.slot hs]; exact h0)
  rw [h.slot hs] at hdata
  exact hdata.trans (h.data hs hlen h0)

theorem block (h : ZonesKept d d' ino) (hb : b < 2 ^ 16) :
    blockZone d' ino b = blockZone d ino b := h.slot (blockSlot hb).1

theorem byteAt (h : ZonesKept d d' ino) (hy : y < maxOffset) :
    Cyanurus.byteAt d' ino y = Cyanurus.byteAt d ino y :=
  byteAt_congr (h.block (block_lt hy)) fun h0 =>
    congrFun (h.data (blockSlot (block_lt hy)).1 (blockSlot (block_lt hy)).2 h0) _

/-- A change outside the data zones. -/
theorem of_zones (hz : ∀ {k p}, IsSlot k p → zoneOf d ino k p ≠ 0 →
    d' (zoneOf d ino k p) = d (zoneOf d ino k p)) : ZonesKept d d' ino := by
  refine ⟨fun hs => zoneOf_congr (fun j q hq h0 => ?_) (fun _ _ => rfl) hs, fun hs _ h0 => hz hs h0⟩
  unfold zoneMem
  rw [hz hq.up h0]

end ZonesKept

theorem Ext.zonesKept (he : Ext sb A f n d₀ d ino) (hz : Zones sb d₀ A f) (hn : A n) (hm : A m)
    (hne : m ≠ n) : ZonesKept d₀ d (f m) := by
  refine ⟨fun hs => he.others hm hne hs, fun {k p} hs hlen h0 => ?_⟩
  -- a zone of `m` is no indirect zone of `n`
  refine he.same (hz.marked hm hs h0).1.1 fun l q hq _ heq => hne ?_
  have hu := he.zones.unique hm hs hn hq
  rw [Function.update_of_ne hne, Function.update_self, he.others hm hne hs] at hu
  exact (hu h0 heq.symm).1

theorem DataOnly.zonesKept (hd : DataOnly d d' (f n)) (hzs : Zones sb d A f) (hn : A n) (hm : A m)
    (hne : m ≠ n) : ZonesKept d d' (f m) :=
  ⟨fun hs => hd.zoneOf_eq hzs.sited hn hm hs, fun hs _ h0 => hd.zone hzs.sited hn hm hs h0 (.inl hne)⟩

theorem Shrunk.zonesKept (h : Shrunk sb A f n d₀ d ino) (hz : Zones sb d₀ A f) (hn : A n) (hm : A m)
    (hne : m ≠ n) : ZonesKept d₀ d (f m) := by
  refine ⟨fun hs => h.others hm hne hs, fun {k p} hs _ h0 => ?_⟩
  refine h.same (hz.marked hm hs h0).1.1 fun l q hq _ heq => hne ?_
  exact (hz.unique hm hs hn hq h0 heq.symm).1

/-! ## Operations on one inode -/

/-- The same inode in memory, up to its size and its links. -/
def Inode.Same (i i' : Inode) : Prop := i'.index = i.index ∧ i'.mode = i.mode

theorem Inode.Same.refl (i : Inode) : i.Same i := ⟨rfl, rfl⟩

theorem Inode.Same.trans {i i' i'' : Inode} (h : i.Same i') (h' : i'.Same i'') : i.Same i'' :=
  ⟨h'.1.trans h.1, h'.2.trans h.2⟩

/-- From `v` to `w` every inode but `n` keeps its fields and its blocks. -/
structure Volume.Others (v w : Volume) (n : Nat) : Prop where
  sb : w.sb = v.sb
  alloc : ∀ {m}, m ≠ n → (Allocated w.sb w.disk m ↔ Allocated v.sb v.disk m)
  read : ∀ {m}, m ≠ n → Allocated v.sb v.disk m → readInode w.sb w.disk m = readInode v.sb v.disk m
  blocks : ∀ {m}, m ≠ n → Allocated v.sb v.disk m →
    ZonesKept v.disk w.disk (readInode v.sb v.disk m)

namespace Volume.Others

variable {u v w : Volume}

theorem trans (h : v.Others w n) (h' : w.Others u n) : v.Others u n where
  sb := h'.sb.trans h.sb
  alloc := fun hne => (h'.alloc hne).trans (h.alloc hne)
  read := fun hne hm => (h'.read hne ((h.alloc hne).mpr hm)).trans (h.read hne hm)
  blocks := fun hne hm => by
    have h1 := h'.blocks hne ((h.alloc hne).mpr hm)
    rw [h.read hne hm] at h1
    exact (h.blocks hne hm).trans h1

/-- The other files hold what they held. -/
theorem fileAt (h : v.Others w n) (hne : m ≠ n) (hm : Allocated v.sb v.disk m) (hy : y < maxOffset) :
    w.fileAt m y = v.fileAt m y := by
  unfold Volume.fileAt
  rw [h.read hne hm]
  exact (h.blocks hne hm).byteAt hy

theorem mapped (h : v.Others w n) (hne : m ≠ n) (hm : Allocated v.sb v.disk m) (hb : b < 2 ^ 16) :
    w.Mapped m b ↔ v.Mapped m b := by
  unfold Volume.Mapped
  rw [h.read hne hm, (h.blocks hne hm).block hb]

end Volume.Others

/-- Of inode `n` only the size, the links and the blocks are changed. -/
structure Volume.Edits (v w : Volume) (n : Nat) : Prop extends Volume.Others v w n where
  self : Allocated w.sb w.disk n ↔ Allocated v.sb v.disk n
  mode : Allocated v.sb v.disk n →
    iMode (readInode w.sb w.disk n) = iMode (readInode v.sb v.disk n)
  objects : v.inodes.Rel Inode.Same w.inodes

namespace Volume.Edits

variable {u v w : Volume} {p : Nat} {inode : Inode}

theorem refl (v : Volume) (n : Nat) : v.Edits v n :=
  ⟨⟨rfl, fun _ => Iff.rfl, fun _ _ => rfl, fun _ _ => .refl _ _⟩, Iff.rfl, fun _ => rfl,
    .refl Inode.Same.refl _⟩

theorem trans (h : v.Edits w n) (h' : w.Edits u n) : v.Edits u n :=
  ⟨h.toOthers.trans h'.toOthers, h'.self.trans h.self,
    fun hn => (h'.mode (h.self.mpr hn)).trans (h.mode hn), h.objects.trans Inode.Same.trans h'.objects⟩

theorem allocated (h : v.Edits w n) : Allocated w.sb w.disk = Allocated v.sb v.disk := by
  funext m
  by_cases hm : m = n
  · subst hm
    exact propext h.self
  · exact propext (h.alloc hm)

/-- A change of zones only. -/
theorem disk (hl : v.sb.Layout) (hd : ZoneSide v.sb v.disk d)
    (hb : ∀ {m}, m ≠ n → Allocated v.sb v.disk m → ZonesKept v.disk d (readInode v.sb v.disk m)) :
    v.Edits { v with disk := d } n := by
  have halloc : Allocated v.sb d = Allocated v.sb v.disk := hd.allocated hl
  exact ⟨⟨rfl, fun _ => by rw [halloc], fun _ hm => hd.readInode hl hm.1, hb⟩, by rw [halloc],
    fun hn => by rw [hd.readInode hl hn.1], .refl Inode.Same.refl _⟩

/-- The end of `inode_truncate`, with a copy of the inode that has its old mode. -/
theorem finish (hv : v.Inv) (hp : v.inodes.get p = some inode) (hd : ZoneSide v.sb v.disk d)
    (hb : ∀ {m}, m ≠ inode.index → Allocated v.sb v.disk m →
      ZonesKept v.disk d (readInode v.sb v.disk m))
    (hmode : iMode ino = iMode (readInode v.sb v.disk inode.index)) :
    v.Edits (truncateEnd v p inode.index d ino) inode.index := by
  have hl := hv.layout
  have hidx := (hv.live hp).1
  obtain ⟨htab, hself, hother⟩ := writeInode_spec hl d hidx.1 ino
  have halloc : Allocated v.sb (writeInode v.sb d inode.index ino) = Allocated v.sb v.disk := by
    rw [allocated_congr fun _ hm => htab.imapBit hl hm, hd.allocated hl]
  refine ⟨⟨rfl, fun _ => ?_, fun hne hm => ?_, fun {m} hne hm => (hb hne hm).trans ?_⟩, ?_,
    fun _ => ?_, .modify Inode.Same.refl p fun i => ⟨rfl, rfl⟩⟩
  · show Allocated v.sb (writeInode v.sb d inode.index ino) _ ↔ _
    rw [halloc]
  · show readInode v.sb (writeInode v.sb d inode.index ino) _ = _
    rw [hother _ hm.1 hne, hd.readInode hl hm.1]
  · refine .of_zones fun {k q} hs h0 => htab.zone ?_
    rw [(hb hne hm).slot hs] at h0 ⊢
    exact (hv.zones.marked hm hs h0).1.1
  · show Allocated v.sb (writeInode v.sb d inode.index ino) _ ↔ _
    rw [halloc]
  · exact (Bytes.load_congr fun x _ hx => hself x (by omega)).trans hmode

end Volume.Edits

variable {v w : Volume} {p size : Nat} {inode : Inode} {r : Int}

theorem iMode_congr {a b : Bytes} (h : ∀ x, x < 24 → b x = a x) : iMode b = iMode a :=
  Bytes.load_congr fun x _ hx => h x (by omega)

theorem iMode_setSize (ino : Bytes) (size : Nat) : iMode (setSize ino size) = iMode ino :=
  Bytes.load_store_apart _ _ (by unfold Bytes.Apart; omega)

/-- **`inode_truncate` edits its inode**, also when it gives up. -/
theorem Truncated.edits {rest : List (Nat × List Nat)} (hv : v.Inv) (hp : v.inodes.get p = some inode)
    (ht : Truncated v p inode size rest r w) : v.Edits w inode.index := by
  have hidx := (hv.live hp).1
  cases ht with
  | same _ => exact .refl v _
  | full _ hg =>
    exact .disk hv.layout hg.ext.rest fun hne hm => hg.ext.zonesKept hv.zones hidx hm hne
  | gap _ hg hcl =>
    refine .disk hv.layout (hv.cleared_side hp hg.ext hcl) fun hne hm => ?_
    exact (hg.ext.zonesKept hv.zones hidx hm hne).trans
      ((hv.cleared hp hg.ext hcl).1.zonesKept hg.ext.zones_disk hidx hm hne)
  | grown _ hg hcl =>
    refine .finish hv hp (hv.cleared_side hp hg.ext hcl) (fun hne hm => ?_) ?_
    · exact (hg.ext.zonesKept hv.zones hidx hm hne).trans
        ((hv.cleared hp hg.ext hcl).1.zonesKept hg.ext.zones_disk hidx hm hne)
    · split
      · exact iMode_congr hg.ext.head
      · exact (iMode_setSize ..).trans (iMode_congr hg.ext.head)
  | shrunk _ hs _ =>
    exact .finish hv hp hs.rest (fun hne hm => hs.zonesKept hv.zones hidx hm hne)
      ((iMode_setSize ..).trans (iMode_congr hs.head))

/-- A block of the file is written. -/
theorem Volume.Inv.blockEdits (hv : v.Inv) (hp : v.inodes.get p = some inode) (hb : b < 2 ^ 16)
    (h0 : getBlock v.sb v.disk inode.index b ≠ 0) (buf : Bytes) :
    v.Edits { v with disk := blockWrite v.disk (getBlock v.sb v.disk inode.index b) buf }
      inode.index := by
  have hidx := (hv.live hp).1
  obtain ⟨_, hd⟩ := hv.writeBlock hp hb h0 buf
  exact .disk hv.layout (hd.zonesOnly hv.zones.sited hidx).zoneSide fun hne hm =>
    hd.zonesKept hv.zones hidx hm hne

/-- **`inode_write` edits its inode.** -/
theorem inodeWrite_edits (hv : v.Inv) (hp : v.inodes.get p = some inode) {start : Nat} {data : Bytes}
    (hc : v.CleanWrite inode start size)
    (h : inodeWrite v p size start data = .ok (r, w)) : v.Edits w inode.index := by
  refine (inodeWrite_rel (R := fun v w => v.Edits w inode.index) hv hp ⟨fun v => .refl v _,
    fun h h' => h.trans h', fun hv hp hn _ ht => ?_, fun buf hv hp hn hb h0 => ?_⟩ hc h).2
  · rw [← hn]
    exact ht.edits hv hp
  · rw [← hn]
    exact hv.blockEdits hp hb h0 buf

/-! ## Files that stay as they are -/

/-- Inode `n` has the same mode, size and blocks in `v` and `w`. -/
structure Volume.SameFile (v w : Volume) (n : Nat) : Prop where
  mode : iMode (readInode w.sb w.disk n) = iMode (readInode v.sb v.disk n)
  size : iSize (readInode w.sb w.disk n) = iSize (readInode v.sb v.disk n)
  mapped : ∀ {b}, b < 2 ^ 16 → (w.Mapped n b ↔ v.Mapped n b)
  bytes : ∀ {y}, y < maxOffset → w.fileAt n y = v.fileAt n y

theorem Volume.SameFile.refl (v : Volume) (n : Nat) : v.SameFile v n :=
  ⟨rfl, rfl, fun _ => Iff.rfl, fun _ => rfl⟩

theorem Volume.SameFile.trans {u : Volume} (h : v.SameFile w n) (h' : w.SameFile u n) :
    v.SameFile u n :=
  ⟨h'.mode.trans h.mode, h'.size.trans h.size, fun hb => (h'.mapped hb).trans (h.mapped hb),
    fun hy => (h'.bytes hy).trans (h.bytes hy)⟩

theorem Volume.Others.sameFile (h : v.Others w n) (hne : m ≠ n) (hm : Allocated v.sb v.disk m) :
    v.SameFile w m where
  mode := by rw [h.read hne hm]
  size := by rw [h.read hne hm]
  mapped := h.mapped hne hm
  bytes := h.fileAt hne hm

/-- The marks of the zones are the same. -/
def Volume.SameZones (v w : Volume) : Prop :=
  freeZones w.sb w.disk = freeZones v.sb v.disk
    ∧ (∀ z ∈ freeZones v.sb v.disk, w.disk z = v.disk z)
    ∧ bitAt w.disk w.sb.zmapStart 0 = bitAt v.disk v.sb.zmapStart 0

/-- The fields `inode_set` writes. -/
theorem inodeSet_fields (ino : Bytes) (mode size nlinks : Nat) :
    (∀ k, k ≤ 8 → iZone (setNlinks (setSize (setMode ino mode) size) nlinks) k = iZone ino k)
    ∧ iMode (setNlinks (setSize (setMode ino mode) size) nlinks) = mode % 2 ^ 16
    ∧ iSize (setNlinks (setSize (setMode ino mode) size) nlinks) = size % 2 ^ 32 := by
  refine ⟨fun k _ => ?_, ?_, ?_⟩
  · unfold iZone setNlinks
    rw [Bytes.load_store_apart _ _ (by unfold Bytes.Apart; omega)]
    refine (iZone_setSize ..).trans ?_
    exact Bytes.load_store_apart _ _ (by unfold Bytes.Apart; omega)
  · unfold iMode setNlinks
    rw [Bytes.load_store_apart _ _ (by unfold Bytes.Apart; omega)]
    exact (iMode_setSize ..).trans (Bytes.load_store_self ..)
  · unfold iSize setNlinks
    rw [Bytes.load_store_apart _ _ (by unfold Bytes.Apart; omega)]
    exact iSize_setSize ..

/-- **`inode_set` changes nothing but the number of links.** -/
theorem inodeSet_spec (hv : v.Inv) (hp : v.inodes.get p = some inode)
    (hmode : inode.mode = iMode (readInode v.sb v.disk inode.index)) :
    ∃ w, inodeSet v p = .ok w ∧ w.Inv ∧ v.Edits w inode.index ∧ v.SameFile w inode.index
      ∧ v.SameZones w ∧ w.inodes = v.inodes := by
  have hl := hv.layout
  obtain ⟨hidx, hsize⟩ := hv.live hp
  obtain ⟨hzones, hm, hs⟩ := inodeSet_fields (readInode v.sb v.disk inode.index) inode.mode inode.size
    inode.nlinks
  have hset : inodeSet v p = .ok { v with disk := writeInode v.sb v.disk inode.index (setNlinks
      (setSize (setMode (readInode v.sb v.disk inode.index) inode.mode) inode.size) inode.nlinks) } := by
    unfold inodeSet
    rw [hp]
  generalize setNlinks (setSize (setMode (readInode v.sb v.disk inode.index) inode.mode) inode.size)
    inode.nlinks = ino at hzones hm hs hset
  rw [hsize, Nat.mod_eq_of_lt (show iSize _ < 2 ^ 32 from Bytes.load_lt _ 4 8)] at hs
  rw [hmode, Nat.mod_eq_of_lt (show iMode _ < 2 ^ 16 from Bytes.load_lt _ 2 0)] at hm
  -- the object in memory has this size already
  have hend : truncateEnd v p inode.index v.disk ino
      = { v with disk := writeInode v.sb v.disk inode.index ino } := by
    unfold truncateEnd
    rw [Store.modify_same hp (by rw [hs, ← hsize])]
  have hz : Zones v.sb v.disk (Allocated v.sb v.disk) (Function.update (readInode v.sb v.disk)
      inode.index (readInode v.sb v.disk inode.index)) := by
    rw [Function.update_eq_self]
    exact hv.zones
  have hside : ZoneSide v.sb v.disk v.disk := fun _ _ _ => rfl
  obtain ⟨htab, hself, _⟩ := writeInode_spec hl v.disk hidx.1 ino
  have hinv := (hv.finish hp hside hz hzones).1
  have hedits := Volume.Edits.finish hv hp hside (fun _ _ => .refl _ _) hm
  have hfile := fun {b y} => fileAt_truncateEnd (b := b) (y := y) hv hp hside hz hzones hidx
  rw [Function.update_eq_self] at hfile
  rw [hend] at hinv hedits hfile
  refine ⟨_, hset, hinv, hedits, ⟨hedits.mode hidx, ?_, fun hb => ?_, fun hy => (hfile (b := 0)).2 hy⟩,
    ⟨?_, fun z hz => htab.zone (mem_freeZones.mp hz).1, bitAt_congr (htab _ (Or.inl (zmapStart_bit hl)))⟩, rfl⟩
  · exact (iSize_congr fun x hx => hself x (by omega)).trans hs
  · unfold Volume.Mapped
    rw [(hfile (y := 0)).1 hb]
  · exact freeZones_congr fun z hz => htab.zmapBit hl hz

/-! ## Creating and destroying -/

/-- The data zones are as they were. -/
theorem ZonesKept.of_first (hz : Zones sb d A f) (hm : A m)
    (h : ∀ b, sb.sFirstdatazone ≤ b → d' b = d b) : ZonesKept d d' (f m) :=
  .of_zones fun hs h0 => h _ (hz.marked hm hs h0).1.1

/-- `inode_create` that gives up. -/
theorem Created.edits {mode : Nat} (hv : v.Inv) (hc : Created v mode Option.none w) (n : Nat) :
    v.Edits w n := by
  have hle := inodeZoneIndex_le hv.layout
  cases hc with
  | @none d himap htab hzmap _ =>
    have halloc : Allocated v.sb d = Allocated v.sb v.disk := allocated_congr himap
    have hread : ∀ {m}, Allocated v.sb v.disk m → readInode v.sb d m = readInode v.sb v.disk m :=
      fun hm => readInode_congr hv.layout hm.1 (htab _ (Nat.le_add_right ..))
    refine ⟨⟨rfl, fun _ => by rw [halloc], fun _ hm => hread hm, fun _ hm => ?_⟩,
      by rw [halloc], fun hn => congrArg iMode (hread hn), .refl Inode.Same.refl _⟩
    exact .of_first hv.zones hm fun b hb => htab b (Nat.le_trans hle hb)

/-- **`inode_create` makes an empty inode beside the others.** -/
theorem Created.others {mode q : Nat} (hv : v.Inv) (hc : Created v mode (some q) w) :
    ∃ n, ¬ Allocated v.sb v.disk n ∧ v.Others w n ∧ Allocated w.sb w.disk n
      ∧ iMode (readInode w.sb w.disk n) = mode % 2 ^ 16 ∧ iSize (readInode w.sb w.disk n) = 0
      ∧ w.Mapped n 0 ∧ v.inodes.get q = Option.none ∧ w.inodes.get q = some ⟨n, mode, 0, 0⟩
      ∧ (∀ {q'}, q' ≠ q → w.inodes.get q' = v.inodes.get q')
      ∧ ∃ z, freeZones v.sb v.disk = z :: freeZones w.sb w.disk := by
  obtain ⟨n', hold, hnew, hun', hmap⟩ := hc.new hv
  cases hc with
  | @made n z d hn hun hz0 himap hread hself hzone hfree hzmap hbit hzones =>
    have halloc := allocated_insert hn himap
    have hidx : n' = n := by
      have hget : ((v.inodes.alloc ⟨n, 0, 0, 0⟩).modify v.inodes.next
          fun i => { i with mode := mode }).get v.inodes.next = some ⟨n, mode, 0, 0⟩ :=
        Store.modify_self_of Store.alloc_self rfl
      rw [hnew] at hget
      exact congrArg Inode.index (Option.some.inj hget)
    subst hidx
    refine ⟨n', hun', ⟨rfl, fun {m} hne => ?_, fun hne hm => hread _ hm.1 hne, fun _ hm => ?_⟩, ?_, ?_,
      ?_, hmap, hold, hnew, fun {q'} hq => ?_, ?_⟩
    · rw [halloc]
      exact ⟨fun h => h.resolve_right hne, Or.inl⟩
    · exact .of_first hv.zones hm hzone
    · rw [halloc]
      exact Or.inr rfl
    · refine (iMode_congr fun x hx => hself x (by omega)).trans ?_
      refine (iMode_congr fun x hx => setZone_head _ 0 z hx).trans ?_
      exact Bytes.load_store_self ..
    · refine (iSize_congr fun x hx => hself x (by omega)).trans ?_
      rw [iSize_congr fun x hx => setZone_head _ 0 z hx, iSize_setMode_zero]
    · rw [Store.modify_ne hq, Store.alloc_ne hq]
    · exact ⟨z, hfree⟩

/-- What the end of `inode_destroy` leaves alone. -/
theorem destroyEnd_others (hv : v.Inv) (hn : Allocated v.sb v.disk n) :
    v.Others { v with
      disk := unmarkImap (writeInode v.sb (unmarkZmap v.sb v.disk
        (iZone (readInode v.sb v.disk n) 0)) n fun _ => 0) n } n
    ∧ ¬ Allocated v.sb (unmarkImap (writeInode v.sb (unmarkZmap v.sb v.disk
        (iZone (readInode v.sb v.disk n) 0)) n fun _ => 0) n) n := by
  have hl := hv.layout
  have hslot : IsSlot 0 [] := ⟨by omega, Nat.zero_le _, by simp⟩
  obtain ⟨hd1, _, _⟩ := unmarkZmap_slot hl hv.small (z := iZone (readInode v.sb v.disk n) 0)
    (fun h => (hv.zones.marked hn hslot h).1) v.disk
  generalize unmarkZmap v.sb v.disk (iZone (readInode v.sb v.disk n) 0) = d1 at hd1 ⊢
  obtain ⟨hd2, _, hread2⟩ := writeInode_spec hl d1 hn.1 fun _ => 0
  generalize writeInode v.sb d1 n (fun _ => 0) = d2 at hd2 hread2 ⊢
  obtain ⟨hd3, hb3⟩ := unmarkImap_spec hl d2 hn.1
  generalize unmarkImap d2 n = d3 at hd3 hb3 ⊢
  have hbit : ∀ {m}, v.sb.IsInode m → imapBit d3 m = (imapBit v.disk m && decide (m ≠ n)) := by
    intro m hm
    rw [hb3 m, hd2.imapBit hl hm, hd1.imapBit hl hm]
  refine ⟨⟨rfl, fun {m} hne => and_congr_right fun hm => ?_, fun hne hm => ?_, fun _ hm => ?_⟩, fun h => ?_⟩
  · rw [hbit hm, decide_eq_true hne, Bool.and_true]
  · rw [hd3.readInode hl hm.1, hread2 _ hm.1 hne, hd1.readInode hl hm.1]
  · refine .of_first hv.zones hm fun b hb => ?_
    show d3 b = _
    rw [hd3.zone hl hb, hd2.zone hb, hd1.zone hl hb]
  · have := h.2
    rw [hbit hn.1] at this
    simp at this

/-- **`inode_destroy` takes its inode and nothing else.** -/
theorem inodeDestroy_others (hv : v.Inv) (hp : v.inodes.get p = some inode)
    (h : inodeDestroy v p = .ok w) :
    v.Others w inode.index ∧ ¬ Allocated w.sb w.disk inode.index ∧ w.inodes.get p = none
      ∧ ∀ {q}, q ≠ p → Option.Rel Inode.Same (v.inodes.get q) (w.inodes.get q) := by
  obtain ⟨⟨r, u⟩, ht, h⟩ := bind_eq_ok h
  have htr := inodeTruncate_cases hv hp no_slots (fun hlt => by omega) ht
  obtain ⟨inode', hp', hidx⟩ := htr.get hp
  have hu := htr.inv hv hp
  have he := htr.edits hv hp
  simp only [hp'] at h
  cases h
  obtain ⟨ho, hgone⟩ := destroyEnd_others hu (hu.live hp').1
  rw [hidx] at ho hgone ⊢
  refine ⟨he.toOthers.trans ⟨ho.sb, ho.alloc, ho.read, ho.blocks⟩, hgone, Store.free_self, fun hq => ?_⟩
  show Option.Rel _ _ ((u.inodes.free p).get _)
  rw [Store.free_ne hq]
  exact he.objects _

end Cyanurus
