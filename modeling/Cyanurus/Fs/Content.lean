import Cyanurus.Fs.Create

/-!
# What files contain

`v.fileAt n y` is byte `y` of inode `n`, if the block is mapped. The operations are
described by what they do to these bytes: growing a file keeps every byte of every
file and clears the new ones, a write to a block changes the bytes of that block in one
file. Zones that are owned once are what makes the second half true: no other file and
no indirect zone can see the write.
-/

namespace Cyanurus

/-- Byte `y` of the file with this inode, if its block is mapped. -/
def byteAt (d : Disk) (ino : Bytes) (y : Nat) : Option UInt8 :=
  if blockZone d ino (y / blockSize) = 0 then none else some (fileByte d ino y)

/-- Byte `y` of inode `n`. -/
def Volume.fileAt (v : Volume) (n y : Nat) : Option UInt8 :=
  byteAt v.disk (readInode v.sb v.disk n) y

/-- The size of inode `n` on disk. -/
def Volume.sizeOf (v : Volume) (n : Nat) : Nat := iSize (readInode v.sb v.disk n)

/-- The offsets with a block number of 16 bits. -/
def maxOffset : Nat := 2 ^ 16 * blockSize

variable {sb : Superblock} {d d' d₀ : Disk} {A : Nat → Prop} {f : Nat → Bytes}
  {ino ino' : Bytes} {n m y b : Nat} {c : UInt8}

theorem block_lt (hy : y < maxOffset) : y / blockSize < 2 ^ 16 :=
  Nat.div_lt_of_lt_mul (by rw [Nat.mul_comm]; exact hy)

theorem byteAt_eq_some : byteAt d ino y = some c ↔
    blockZone d ino (y / blockSize) ≠ 0 ∧ fileByte d ino y = c := by
  unfold byteAt
  split
  · rename_i h
    simp [h]
  · rename_i h
    simp [h]

theorem byteAt_congr (hz : blockZone d' ino' (y / blockSize) = blockZone d ino (y / blockSize))
    (hd : blockZone d ino (y / blockSize) ≠ 0 →
      d' (blockZone d ino (y / blockSize)) (y % blockSize)
        = d (blockZone d ino (y / blockSize)) (y % blockSize)) :
    byteAt d' ino' y = byteAt d ino y := by
  unfold byteAt fileByte
  rw [hz]
  split
  · rfl
  · rename_i h
    rw [hd h]

/-! ## Growing -/

/-- While a file grows, blocks stay in their zones, and the zones hold what they held. -/
theorem Ext.block (he : Ext sb A f n d₀ d ino) (hz : Zones sb d₀ A f) (hn : A n) (hm : A m)
    (hb : b < 2 ^ 16) (h0 : blockZone d₀ (f m) b ≠ 0) :
    blockZone d (Function.update f n ino m) b = blockZone d₀ (f m) b
      ∧ d (blockZone d₀ (f m) b) = d₀ (blockZone d₀ (f m) b) := by
  obtain ⟨hslot, hlen⟩ := blockSlot hb
  have hzone : blockZone d (Function.update f n ino m) b = blockZone d₀ (f m) b := by
    by_cases hmn : m = n
    · subst hmn
      rw [Function.update_self]
      exact he.mono hslot h0
    · rw [Function.update_of_ne hmn]
      exact he.others hm hmn hslot
  -- the zone holds data of `m`, so it is no indirect zone of `n`
  refine ⟨hzone, he.same (hz.marked hm hslot h0).1.1 fun k p hs hlt heq => ?_⟩
  have hu := he.zones.unique hm hslot hn hs
  rw [Function.update_self] at hu
  obtain ⟨_, hk, hp⟩ := hu (by unfold blockZone at hzone; rw [hzone]; exact h0)
    (by unfold blockZone at hzone; rw [hzone, heq]; rfl)
  rw [← hp] at hlt
  omega

/-- Every file keeps its bytes. -/
theorem Ext.byteAt (he : Ext sb A f n d₀ d ino) (hz : Zones sb d₀ A f) (hn : A n) (hm : A m)
    (hy : y < maxOffset) (h : byteAt d₀ (f m) y = some c) :
    byteAt d (Function.update f n ino m) y = some c := by
  obtain ⟨h1, h2⟩ := he.block hz hn hm (block_lt hy) (byteAt_eq_some.mp h).1
  rw [byteAt_congr h1 fun _ => by rw [h2]]
  exact h

/-- The zones that the inode on disk had are the zones it has. -/
theorem Ext.disk_mono (he : Ext sb A f n d₀ d ino) {k : Nat} : ∀ {p : List Nat}, IsSlot k p →
    zoneOf d₀ (f n) k p ≠ 0 → zoneOf d (f n) k p = zoneOf d₀ (f n) k p := by
  intro p
  induction p with
  | nil => exact fun _ _ => rfl
  | cons j p ih =>
    intro hs h0
    have hup : zoneOf d₀ (f n) k p ≠ 0 := Forest.follow_up h0
    have h1 := ih hs.up hup
    have h2 := he.mono hs h0
    rw [zoneOf_cons (he.mono hs.up hup) hup] at h2
    rw [zoneOf_cons h1 hup, h2]

/-! ## Writing -/

/-- A write to data of `n` is not seen by the other files. -/
theorem DataOnly.byteAt (hd : DataOnly d d' (f n)) (hzs : Sited sb d A f) (hn : A n) (hm : A m)
    (hne : m ≠ n) (hy : y < maxOffset) : byteAt d' (f m) y = byteAt d (f m) y := by
  have hslot := (blockSlot (block_lt hy)).1
  exact byteAt_congr (hd.zoneOf_eq hzs hn hm hslot) fun h0 => by
    rw [show d' (blockZone d (f m) (y / blockSize)) = d (blockZone d (f m) (y / blockSize)) from
      hd.zone hzs hn hm hslot h0 (Or.inl hne)]

/-- A write to a block is seen in that block of that file. -/
theorem byteAt_update (hzs : Sited sb d A f) (hn : A n) (hb : b < 2 ^ 16)
    (h0 : blockZone d (f n) b ≠ 0) (buf : Bytes) (hy : y < maxOffset) :
    byteAt (Function.update d (blockZone d (f n) b) buf) (f n) y
      = if y / blockSize = b then some (buf (y % blockSize)) else byteAt d (f n) y := by
  have hd := dataOnly_update hb h0 buf
  have hslot := blockSlot (block_lt hy)
  have hzone := hd.zoneOf_eq hzs hn hn hslot.1
  by_cases hyb : y / blockSize = b
  · rw [if_pos hyb]
    refine byteAt_eq_some.mpr ⟨?_, ?_⟩
    · unfold blockZone at h0 hzone ⊢
      rw [hzone, hyb]
      exact h0
    · unfold fileByte blockZone at *
      rw [hzone, hyb, Function.update_self]
  · rw [if_neg hyb]
    refine byteAt_congr hzone fun hy0 => ?_
    rw [Function.update_of_ne fun heq => hyb ?_]
    obtain ⟨_, hk, hp⟩ := hzs.unique hn hslot.1 hn (blockSlot hb).1 hy0 heq
    exact blockSlot_inj (block_lt hy) hb hk hp

/-! ## Growing

`inode_truncate` clears the new bytes through the inode on disk, while the zones for them are in
the copy in work. It finds the blocks that are mapped already, and those that hang under an entry
of `i_zone` that is on disk. -/

/-- Bytes of one block that are cleared. -/
theorem fill_block {s copy : Nat} {buf : Bytes} (hy : y / blockSize = s / blockSize) :
    buf.fill (s % blockSize) copy 0 (y % blockSize)
      = if s ≤ y ∧ y < s + copy then 0 else buf (y % blockSize) := by
  unfold Bytes.fill
  have h1 := Nat.div_add_mod y blockSize
  have h2 := Nat.div_add_mod s blockSize
  rw [hy] at h1
  by_cases hr : s ≤ y ∧ y < s + copy
  · rw [if_pos hr, if_pos (by omega)]
  · rw [if_neg hr, if_neg (by omega)]

/-- The numbers of a round that clears from `s` on. -/
theorem clear_arith {s t : Nat} (hst : s < t) (ht : t < 2 ^ 32) : 0 < copySize s (t - s)
    ∧ s % blockSize + copySize s (t - s) ≤ blockSize ∧ s + copySize s (t - s) ≤ t
    ∧ (s + copySize s (t - s) = t ∨ (s + copySize s (t - s)) / blockSize = s / blockSize + 1) := by
  unfold copySize blockSize
  simp only []
  split <;> omega

/--
**The loop that clears** goes through exactly if the inode on disk maps every block on its way,
by their 16-bit numbers. Where these do not wrap, it clears the bytes from `s` to `t` and
changes no others.
-/
theorem clearLoop_spec (hl : sb.Layout) (hz : sb.sZones ≤ 2 ^ 16) (hn : A n) (hi : sb.IsInode n)
    {t : Nat} (ht : t < 2 ^ 32) : ∀ (fuel : Nat) {d : Disk} {s : Nat}, Zones sb d A f →
    readInode sb d n = f n → s ≤ t → s = t ∧ 0 < fuel ∨ t / blockSize + 2 ≤ s / blockSize + fuel →
    ∃ ok d', clearLoop sb n t fuel d s (t - s) = .ok (ok, d')
      ∧ (ok = true ↔ ∀ y, s ≤ y → y < t → blockZone d (f n) (y / blockSize % 2 ^ 16) ≠ 0)
      ∧ (ok = true → t ≤ maxOffset → ∀ y, y < maxOffset →
          byteAt d' (f n) y = if s ≤ y ∧ y < t then some 0 else byteAt d (f n) y)
  | 0, _, s, _, _, hst, hfuel => by
    have := Nat.div_le_div_right (c := blockSize) hst
    omega
  | fuel + 1, d, s, hzs, hf, hst, hfuel => by
    rw [clearLoop]
    rcases Nat.eq_or_lt_of_le hst with rfl | hlt
    · rw [if_pos (Nat.sub_self s)]
      refine ⟨true, d, rfl, iff_of_true rfl fun y h1 h2 => absurd h1 (by omega), fun _ _ y _ => ?_⟩
      rw [if_neg (by omega)]
    have hb : s / blockSize % 2 ^ 16 < 2 ^ 16 := Nat.mod_lt _ (by decide)
    have hget := getBlock_eq hl hz hzs.sited hn hf hb
    rw [if_neg (by omega)]
    by_cases h0 : blockZone d (f n) (s / blockSize % 2 ^ 16) = 0
    · simp only [hget, if_pos h0]
      exact ⟨false, d, rfl, iff_of_false (by simp) fun h => h s (Nat.le_refl s) hlt h0,
        fun h => absurd h (by simp)⟩
    obtain ⟨hpos, hfit, hle, hnext⟩ := clear_arith hlt ht
    obtain ⟨hd, hzs', hf'⟩ := dataOnly_write hl hz hzs hn hi hf hb (by rw [hget]; exact h0)
      ((blockRead d (getBlock sb d n (s / blockSize % 2 ^ 16))).fill (s % blockSize)
        (copySize s (t - s)) 0)
    generalize hcopy : copySize s (t - s) = copy at *
    obtain ⟨ok, d', hrun, hfound, hbytes⟩ := clearLoop_spec hl hz hn hi ht fuel hzs' hf' hle
      (by
        have := Nat.div_le_div_right (c := blockSize) hst
        omega)
    -- the bytes of this round are those of one block
    have hblock : ∀ y, s ≤ y → y < s + copy → y / blockSize = s / blockSize := by
      unfold blockSize at *
      omega
    have hsame : ∀ y, blockZone _ (f n) (y / blockSize % 2 ^ 16)
        = blockZone d (f n) (y / blockSize % 2 ^ 16) := fun _ =>
      hd.zoneOf_eq hzs.sited hn hn (blockSlot (Nat.mod_lt _ (by decide))).1
    refine ⟨ok, d', ?_, hfound.trans ⟨fun h y h1 h2 => ?_, fun h y h1 h2 => ?_⟩, fun hok hm y hy => ?_⟩
    · simp only [hget] at hrun ⊢
      rw [if_neg h0, if_neg (by omega), show (s + copy) % 2 ^ 32 = s + copy by omega,
        show (t - s + 2 ^ 32 - copy) % 2 ^ 32 = t - (s + copy) by omega, if_neg (by omega)]
      exact hrun
    · by_cases hy : y < s + copy
      · rw [hblock y h1 hy]
        exact h0
      · have := h y (by omega) h2
        rwa [hsame] at this
    · rw [hsame]
      exact h y (by omega) h2
    · have hsb : s / blockSize < 2 ^ 16 := block_lt (by omega)
      rw [Nat.mod_eq_of_lt hsb] at h0 hget hbytes
      have hzone : blockZone d (f n) (s / blockSize) < 2 ^ 16 :=
        ((hzs.marked hn (blockSlot hsb).1 h0).bounds hl hz).1
      rw [hbytes hok hm y hy, hget, blockWrite_zone hzone, blockRead_zone hzone,
        byteAt_update hzs.sited hn hsb h0 _ hy]
      by_cases hlater : s + copy ≤ y ∧ y < t
      · rw [if_pos hlater, if_pos (by omega)]
      rw [if_neg hlater]
      by_cases hyb : y / blockSize = s / blockSize
      · rw [if_pos hyb, fill_block hyb]
        by_cases hin : s ≤ y ∧ y < s + copy
        · rw [if_pos hin, if_pos (by omega)]
        · rw [if_neg hin, if_neg (by omega)]
          refine (byteAt_eq_some.mpr ⟨by rw [hyb]; exact h0, ?_⟩).symm
          unfold fileByte
          rw [hyb]
      · have hout : ¬ (s ≤ y ∧ y < s + copy) := fun h => hyb (hblock y h.1 h.2)
        rw [if_neg hyb, if_neg (by omega)]

/-- Block `b` of inode `n` is mapped. -/
def Volume.Mapped (v : Volume) (n b : Nat) : Prop :=
  blockZone v.disk (readInode v.sb v.disk n) b ≠ 0

/--
From `v` to `w` the volume stays in order, and bytes are lost at most in inode `n`, at
offsets in `R`. In memory at most the object `p` differs.
-/
structure Volume.Keeps (v w : Volume) (p n : Nat) (R : Nat → Prop) : Prop where
  inv : w.Inv
  sb : w.sb = v.sb
  alloc : Allocated w.sb w.disk = Allocated v.sb v.disk
  list : w.list = v.list
  next : w.inodes.next = v.inodes.next
  others : ∀ {q}, q ≠ p → w.inodes.get q = v.inodes.get q
  mapped : ∀ {m b}, Allocated v.sb v.disk m → b < 2 ^ 16 → v.Mapped m b → w.Mapped m b
  bytes : ∀ {m y c}, Allocated v.sb v.disk m → y < maxOffset → (m = n → ¬ R y) →
    v.fileAt m y = some c → w.fileAt m y = some c
  /-- Free zones were free, and hold what they held. -/
  free : ∀ {z}, z ∈ freeZones w.sb w.disk → z ∈ freeZones v.sb v.disk ∧ w.disk z = v.disk z
  bit0 : bitAt v.disk v.sb.zmapStart 0 = true → bitAt w.disk w.sb.zmapStart 0 = true

variable {v w u : Volume} {p : Nat} {inode : Inode} {R R' : Nat → Prop}

theorem Volume.Keeps.refl (hv : v.Inv) (p n : Nat) : v.Keeps v p n R where
  inv := hv
  sb := rfl
  alloc := rfl
  list := rfl
  next := rfl
  others := fun _ => rfl
  mapped := fun _ _ h => h
  bytes := fun _ _ _ h => h
  free := fun h => ⟨h, rfl⟩
  bit0 := id

theorem Volume.Keeps.trans (h : v.Keeps w p n R) (h' : w.Keeps u p n R') :
    v.Keeps u p n fun y => R y ∨ R' y where
  inv := h'.inv
  sb := h'.sb.trans h.sb
  alloc := h'.alloc.trans h.alloc
  list := h'.list.trans h.list
  next := h'.next.trans h.next
  others := fun hq => (h'.others hq).trans (h.others hq)
  mapped := fun hm hb hmap => h'.mapped (by rw [h.alloc]; exact hm) hb (h.mapped hm hb hmap)
  bytes := fun hm hy hR hc => h'.bytes (by rw [h.alloc]; exact hm) hy
    (fun e hr => hR e (Or.inr hr)) (h.bytes hm hy (fun e hr => hR e (Or.inl hr)) hc)
  free := fun hz => ⟨(h.free (h'.free hz).1).1, (h'.free hz).2.trans (h.free (h'.free hz).1).2⟩
  bit0 := fun hb => h'.bit0 (h.bit0 hb)

theorem Volume.Keeps.mono (h : v.Keeps w p n R) (hR : ∀ y, R y → R' y) : v.Keeps w p n R' :=
  { h with bytes := fun hm hy hn hc => h.bytes hm hy (fun e hr => hn e (hR _ hr)) hc }

/-- The bytes after the copy of an inode is written back. -/
theorem fileAt_truncateEnd (hv : v.Inv) (hp : v.inodes.get p = some inode)
    (hd : ZoneSide v.sb v.disk d)
    (hz : Zones v.sb d (Allocated v.sb v.disk)
      (Function.update (readInode v.sb v.disk) inode.index ino))
    (hi : ∀ k, k ≤ 8 → iZone ino' k = iZone ino k) (hm : Allocated v.sb v.disk m) :
    (b < 2 ^ 16 → blockZone (truncateEnd v p inode.index d ino').disk
        (readInode v.sb (truncateEnd v p inode.index d ino').disk m) b
      = blockZone d (Function.update (readInode v.sb v.disk) inode.index ino m) b)
    ∧ (y < maxOffset → (truncateEnd v p inode.index d ino').fileAt m y
        = byteAt d (Function.update (readInode v.sb v.disk) inode.index ino m) y) := by
  obtain ⟨_, _, hslots⟩ := hv.finish hp hd hz hi
  have htab := (writeInode_spec hv.layout d (hv.live hp).1.1 ino').1
  refine ⟨fun hb => hslots hm (blockSlot hb).1, fun hy => ?_⟩
  have hslot := (blockSlot (block_lt hy)).1
  refine byteAt_congr (hslots hm hslot) fun h0 => ?_
  exact congrFun (htab.zone (hz.marked hm hslot h0).1.1) _

section Growth

variable {slots rest : List (Nat × List Nat)} {ok : Bool} {s t : Nat}

/-- Zones that are free while a file grows were free before. -/
theorem Ext.free_sub (he : Ext sb A f n d₀ d ino) {z : Nat} (hz : z ∈ freeZones sb d) :
    z ∈ freeZones sb d₀ := by
  obtain ⟨h1, h2, h3⟩ := mem_freeZones.mp hz
  refine mem_freeZones.mpr ⟨h1, h2, ?_⟩
  cases hb : zmapBit sb d₀ z with
  | false => rfl
  | true =>
    rw [he.marks ⟨h1, by omega⟩ hb] at h3
    cases h3

/-- **A growth that is given up changes no file.** -/
theorem Grown.keeps_disk (hv : v.Inv) (hp : v.inodes.get p = some inode)
    (hg : Grown v.sb (Allocated v.sb v.disk) (readInode v.sb v.disk) inode.index v.disk v.disk
      (readInode v.sb v.disk inode.index) slots rest ok d ino) :
    v.Keeps { v with disk := d } p inode.index fun _ => False := by
  have hidx := (hv.live hp).1
  have he := hg.ext
  have hside : ZoneSide v.sb v.disk d := he.rest
  have hread : ∀ {m}, Allocated v.sb v.disk m → readInode v.sb d m = readInode v.sb v.disk m :=
    fun hm => hside.readInode hv.layout hm.1
  have hblock : ∀ {m b}, Allocated v.sb v.disk m → b < 2 ^ 16 →
      blockZone v.disk (readInode v.sb v.disk m) b ≠ 0 →
      blockZone d (readInode v.sb d m) b = blockZone v.disk (readInode v.sb v.disk m) b := by
    intro m b hm hb h0
    rw [hread hm]
    by_cases hmn : m = inode.index
    · subst hmn
      exact he.disk_mono (blockSlot hb).1 h0
    · exact he.others hm hmn (blockSlot hb).1
  refine ⟨hv.disk hside he.zones_disk, rfl, hside.allocated hv.layout, rfl, rfl, fun _ => rfl,
    fun {m b} hm hb h0 => ?_, fun {m y c} hm hy _ hc => ?_, fun hz => ?_, fun hb => (hg.full hb).1⟩
  · show blockZone d (readInode v.sb d m) b ≠ 0
    rw [hblock hm hb h0]
    exact h0
  · have h0 := (byteAt_eq_some.mp hc).1
    show Cyanurus.byteAt d (readInode v.sb d m) y = some c
    rw [byteAt_congr (hblock hm (block_lt hy) h0) fun _ => by
      rw [(he.block hv.zones hidx hm (block_lt hy) h0).2]]
    exact hc
  · exact ⟨he.free_sub hz, he.free_zone hv.layout hidx hz⟩

/-- What is cleared through the inode on disk is cleared for the copy in work. -/
theorem Ext.cleared (he : Ext sb A f n d₀ d ino) (hn : A n) (hd : DataOnly d d' (f n))
    {P : Nat → Prop} [DecidablePred P] (hP : P y → blockZone d (f n) (y / blockSize) ≠ 0)
    (hy : y < maxOffset)
    (hbyte : Cyanurus.byteAt d' (f n) y = if P y then some 0 else Cyanurus.byteAt d (f n) y) :
    Cyanurus.byteAt d' (Function.update f n ino n) y
      = if P y then some 0 else Cyanurus.byteAt d (Function.update f n ino n) y := by
  have hslot := (blockSlot (block_lt hy)).1
  have hcopy : DataOnly d d' (Function.update f n ino n) := by
    rw [Function.update_self]
    exact hd.mono he.disk
  have h1 := hd.zoneOf_eq he.zones_disk.sited hn hn hslot
  have h2 := hcopy.zoneOf_eq he.zones.sited hn hn hslot
  have hdisk := fun {k q} => @Ext.disk _ _ _ _ _ _ _ k he q
  rw [← Function.update_self n ino f] at hdisk
  by_cases h0 : blockZone d (f n) (y / blockSize) = 0
  · -- the block is in the copy only, so that its zone is not written
    rw [if_neg fun h => hP h h0]
    refine byteAt_congr h2 fun hy0 => congrFun (hd _ fun _ k q hs _ heq => ?_) _
    have hsame := (hdisk hs).resolve_left fun h => hy0 (heq.symm.trans h)
    obtain ⟨_, rfl, rfl⟩ := he.zones.unique hn hs hn hslot (by rw [← hsame, heq]; exact hy0)
      (hsame.symm.trans heq)
    exact hy0 (heq.symm.trans h0)
  · have hsame : blockZone d (f n) (y / blockSize) = _ := (hdisk hslot).resolve_left h0
    have hnow : Cyanurus.byteAt d (Function.update f n ino n) y = Cyanurus.byteAt d (f n) y :=
      byteAt_congr hsame.symm fun _ => rfl
    rw [hnow, ← hbyte]
    exact byteAt_congr (h2.trans (hsame.symm.trans h1.symm)) fun _ => rfl

/-- **A growth clears the new bytes and keeps all others.** -/
theorem Grown.keeps (hv : v.Inv) (hp : v.inodes.get p = some inode)
    (hg : Grown v.sb (Allocated v.sb v.disk) (readInode v.sb v.disk) inode.index v.disk v.disk
      (readInode v.sb v.disk inode.index) slots rest true d ino)
    (hd : DataOnly d d' (readInode v.sb v.disk inode.index)) (ht : t ≤ maxOffset)
    (hfound : ∀ y, s ≤ y → y < t →
      blockZone d (readInode v.sb v.disk inode.index) (y / blockSize) ≠ 0)
    (hbytes : ∀ y, y < maxOffset → byteAt d' (readInode v.sb v.disk inode.index) y
      = if s ≤ y ∧ y < t then some 0 else byteAt d (readInode v.sb v.disk inode.index) y)
    (hi : ∀ k, k ≤ 8 → iZone ino' k = iZone ino k) :
    v.Keeps (truncateEnd v p inode.index d' ino') p inode.index (fun y => s ≤ y ∧ y < t)
      ∧ (∀ y, s ≤ y → y < t → (truncateEnd v p inode.index d' ino').fileAt inode.index y = some 0)
      ∧ (∀ b, b < 2 ^ 16 → blockZone d ino b ≠ 0 →
          (truncateEnd v p inode.index d' ino').Mapped inode.index b)
      ∧ freeZones v.sb (truncateEnd v p inode.index d' ino').disk = freeZones v.sb d := by
  have hidx := (hv.live hp).1
  have hl := hv.layout
  have he := hg.ext
  have hside : ZoneSide v.sb v.disk d := he.rest
  have hdata : DataOnly d d' (Function.update (readInode v.sb v.disk) inode.index ino inode.index) := by
    rw [Function.update_self]
    exact hd.mono he.disk
  have hzonly := hdata.zonesOnly he.zones.sited hidx
  have hz' := hdata.zones hl he.zones hidx
  have hfile := fun {m y b : Nat} hm => fileAt_truncateEnd (m := m) (y := y) (b := b) hv hp
    (hside.trans hzonly.zoneSide) hz' hi hm
  obtain ⟨_, _, hmarks⟩ := hv.written hp hg hdata hi
  have htab := (writeInode_spec hl d' hidx.1 ino').1
  have hfree : freeZones v.sb (truncateEnd v p inode.index d' ino').disk = freeZones v.sb d :=
    freeZones_congr hmarks
  -- byte `y` of the file itself
  have hself : ∀ {y}, y < maxOffset → (truncateEnd v p inode.index d' ino').fileAt inode.index y
      = if s ≤ y ∧ y < t then some 0
        else byteAt d (Function.update (readInode v.sb v.disk) inode.index ino inode.index) y := by
    intro y hy
    rw [(hfile (b := 0) hidx).2 hy]
    exact he.cleared (P := fun y => s ≤ y ∧ y < t) hidx hd (fun h => hfound y h.1 h.2) hy (hbytes y hy)
  have hmapped : ∀ b, b < 2 ^ 16 → blockZone d ino b ≠ 0 →
      (truncateEnd v p inode.index d' ino').Mapped inode.index b := by
    intro b hb hb0
    unfold Volume.Mapped
    rw [show (truncateEnd v p inode.index d' ino').sb = v.sb from rfl, (hfile (y := 0) hidx).1 hb,
      show blockZone d' _ b = blockZone d _ b from
        hdata.zoneOf_eq he.zones.sited hidx hidx (blockSlot hb).1, Function.update_self]
    exact hb0
  refine ⟨⟨?_, rfl, ?_, rfl, rfl, fun hq => Store.modify_ne hq, fun {m b} hm hb hmb => ?_,
    fun {m y c} hm hy hR hc => ?_, fun {z} hz => ?_, fun hb => ?_⟩, fun y h1 h2 => ?_, hmapped, hfree⟩
  · exact (hv.finish hp (hside.trans hzonly.zoneSide) hz' hi).1
  · exact (hv.finish hp (hside.trans hzonly.zoneSide) hz' hi).2.1
  · have hkeep := (he.block hv.zones hidx hm hb hmb).1
    by_cases hmn : m = inode.index
    · subst hmn
      rw [Function.update_self] at hkeep
      exact hmapped b hb (by rw [hkeep]; exact hmb)
    · unfold Volume.Mapped
      rw [show (truncateEnd v p inode.index d' ino').sb = v.sb from rfl, (hfile (y := 0) hm).1 hb,
        show blockZone d' _ b = blockZone d _ b from
          hdata.zoneOf_eq he.zones.sited hidx hm (blockSlot hb).1, hkeep]
      exact hmb
  · have hold := he.byteAt hv.zones hidx hm hy hc
    by_cases hmn : m = inode.index
    · subst hmn
      rw [hself hy, if_neg fun h => hR rfl h]
      exact hold
    · rw [(hfile (b := 0) hm).2 hy, hdata.byteAt he.zones.sited hidx hm hmn hy]
      exact hold
  · rw [show (truncateEnd v p inode.index d' ino').sb = v.sb from rfl, hfree] at hz
    obtain ⟨g1, g2, g3⟩ := mem_freeZones.mp hz
    refine ⟨he.free_sub hz, ?_⟩
    show writeInode v.sb d' inode.index ino' z = v.disk z
    rw [htab.zone g1, hdata.free he.zones hidx g3, he.free_zone hl hidx hz]
  · show bitAt (writeInode v.sb d' inode.index ino') v.sb.zmapStart 0 = true
    rw [bitAt_congr (htab _ (Or.inl (zmapStart_bit hl))), hzonly.zmapBit0 hl]
    exact (hg.full hb).1
  · rw [hself (by omega), if_pos ⟨h1, h2⟩]

/-- The last slot is that of the block. -/
theorem mem_spine (b : Nat) : (zoneSlot b, blockPath b) ∈ spine b :=
  List.mem_map_of_mem (List.mem_reverse.mpr ((List.mem_tails _ _).mpr List.suffix_rfl))

theorem spine_length (b : Nat) : (spine b).length ≤ 3 := by
  unfold spine blockPath
  split
  · simp
  · split <;> simp

/-- The files `inode_write` works on: below `65535` blocks no number of blocks wraps around. -/
def maxSize : Nat := 65535 * blockSize

theorem extendStart_eq (ht : t < maxSize) : extendStart t = t / blockSize + 1 := by
  have : t / blockSize < 65535 := Nat.div_lt_of_lt_mul (by rw [Nat.mul_comm]; exact ht)
  exact Nat.mod_eq_of_lt (by omega)

/-- The slots of inode `n` that have a zone. -/
def Volume.has (v : Volume) (n : Nat) : Nat × List Nat → Bool :=
  hasZone v.disk (readInode v.sb v.disk n)

/--
The blocks from the end of the file up to byte `t` hang under entries of `i_zone` that inode `n`
has on disk.
-/
def Volume.GapMapped (v : Volume) (n isize t : Nat) : Prop :=
  ∀ b, isize / blockSize < b → b * blockSize < t → v.has n (zoneSlot b, []) = true

/-- The outcome of growing a file. -/
structure Growth (v : Volume) (p : Nat) (inode : Inode) (t : Nat) (r : Int) (w : Volume) : Prop where
  /-- It fails if a block to clear is not found, or if there are too few zones. -/
  failed : r < 0 → inode.size < t ∧ (v.GapMapped inode.index inode.size t →
    v.Keeps w p inode.index (fun _ => False) ∧ w.inodes.get p = some inode
      ∧ (bitAt v.disk v.sb.zmapStart 0 = true → freeZones w.sb w.disk = []
        ∧ (freeZones v.sb v.disk).length < missing (v.has inode.index) (roundSlots inode.size t)))
  done : 0 ≤ r → v.Keeps w p inode.index (fun y => inode.size ≤ y ∧ y < t)
    ∧ w.inodes.get p = some { inode with size := max inode.size t }
    ∧ (∀ y, inode.size ≤ y → y < t → w.fileAt inode.index y = some 0)
    ∧ ∀ b, b ≤ max inode.size t / blockSize → w.Mapped inode.index b
  gap : 0 ≤ r → v.GapMapped inode.index inode.size t
  /-- Each empty slot has taken a zone. -/
  cost : 0 ≤ r → (freeZones v.sb v.disk).length
      = (freeZones w.sb w.disk).length + missing (v.has inode.index) (roundSlots inode.size t)
    ∧ ∀ s, IsSlot s.1 s.2 →
        w.has inode.index s = (v.has inode.index s || decide (s ∈ roundSlots inode.size t))

/-- The slots of the blocks behind the end of the file. -/
theorem spine_extend (hlim : t < maxSize) (hs : s < maxSize) (h1 : s / blockSize < b)
    (h2 : b ≤ t / blockSize) : ∀ x ∈ spine b, x ∈ extendSlots s t := by
  intro x hx
  refine List.mem_flatMap.mpr ⟨b, ?_, hx⟩
  rw [extendStart_eq hlim, extendStart_eq hs]
  exact List.mem_range'_1.mpr ⟨by omega, by omega⟩

/-- After an extension the inode on disk maps a block on the way exactly if it has the entry of
`i_zone` that the block hangs under. -/
theorem Grown.found (hg : Grown sb A f n d₀ d₀ (f n) slots rest true d ino) (hb : b < 2 ^ 16)
    (hmem : (zoneSlot b, blockPath b) ∈ slots) :
    blockZone d (f n) b ≠ 0 ↔ hasZone d₀ (f n) (zoneSlot b, []) = true := by
  rw [hasZone_eq_true]
  refine ⟨fun h h0 => h (zoneOf_empty h0 _), fun h0 => ?_⟩
  have hroot := hg.keep ((blockSlot hb).1.suffix (List.nil_suffix ..)) h0
  unfold blockZone
  rw [← zoneOf_root hroot]
  exact hg.got rfl _ hmem

/-- **The loop that clears finds its blocks** exactly if they are found in this way. -/
theorem Grown.gap
    (hmap : v.Mapped inode.index (inode.size / blockSize)) (hlt : inode.size < t) (hlim : t < maxSize)
    (hg : Grown v.sb (Allocated v.sb v.disk) (readInode v.sb v.disk) inode.index v.disk v.disk
      (readInode v.sb v.disk inode.index) (extendSlots inode.size t) rest true d ino) :
    (∀ y, inode.size ≤ y → y < t →
        blockZone d (readInode v.sb v.disk inode.index) (y / blockSize % 2 ^ 16) ≠ 0)
      ↔ v.GapMapped inode.index inode.size t := by
  have hmax : maxSize + blockSize = maxOffset := rfl
  have hfound : ∀ {b}, inode.size / blockSize < b → b * blockSize < t →
      (blockZone d (readInode v.sb v.disk inode.index) b ≠ 0
        ↔ v.has inode.index (zoneSlot b, []) = true) := by
    intro b h1 h2
    have hbt : b ≤ t / blockSize := (Nat.le_div_iff_mul_le (by decide)).mpr (Nat.le_of_lt h2)
    exact hg.found (Nat.lt_of_le_of_lt hbt (block_lt (by omega)))
      (spine_extend hlim (by omega) h1 hbt _ (mem_spine b))
  constructor
  · intro h b h1 h2
    have hy := h (b * blockSize) (by
      have := Nat.lt_mul_of_div_lt h1 (show 0 < blockSize by decide)
      omega) h2
    rw [Nat.mul_div_cancel _ (by decide), Nat.mod_eq_of_lt] at hy
    · exact (hfound h1 h2).mp hy
    · rw [← Nat.mul_div_cancel b (show 0 < blockSize by decide)]
      exact block_lt (by omega)
  · intro h y h1 h2
    rw [Nat.mod_eq_of_lt (block_lt (by omega))]
    rcases Nat.eq_or_lt_of_le (Nat.div_le_div_right (c := blockSize) h1) with heq | hgt
    · rw [← heq, show blockZone d _ _ = _ from
        hg.ext.disk_mono (blockSlot (block_lt (by omega))).1 hmap]
      exact hmap
    · have hle : y / blockSize * blockSize < t := Nat.lt_of_le_of_lt (Nat.div_mul_le_self ..) h2
      exact (hfound hgt hle).mpr (h _ hgt hle)

/-- An inode with the zones of the copy in work has the slots that are filled, and no others. -/
theorem Grown.has (hg : Grown sb A f n d₀ d ino slots rest true d' ino') {x : Nat × List Nat}
    {e : Disk} {ino'' : Bytes} (hx : IsSlot x.1 x.2)
    (heq : zoneOf e ino'' x.1 x.2 = zoneOf d' ino' x.1 x.2) :
    hasZone e ino'' x = (hasZone d ino x || decide (x ∈ slots)) := by
  by_cases hmem : x ∈ slots
  · rw [decide_eq_true hmem, Bool.or_true]
    exact hasZone_eq_true.mpr (by rw [heq]; exact hg.got rfl x hmem)
  · rw [decide_eq_false hmem, Bool.or_false]
    unfold hasZone
    rw [heq, hg.takes.only hx hmem]

/-- The zero-fill of an extension. -/
theorem clearLoop_ext {d : Disk} {ino : Bytes} {isize : Nat} (hv : v.Inv) (hn : Allocated v.sb v.disk n)
    (he : Ext v.sb (Allocated v.sb v.disk) (readInode v.sb v.disk) n v.disk d ino) (hle : isize ≤ t)
    (ht : t < 2 ^ 32) : ∃ ok d', clearLoop v.sb n t fileRounds d isize (t - isize) = .ok (ok, d')
      ∧ (ok = true ↔ ∀ y, isize ≤ y → y < t →
          blockZone d (readInode v.sb v.disk n) (y / blockSize % 2 ^ 16) ≠ 0)
      ∧ (ok = true → t ≤ maxOffset → ∀ y, y < maxOffset → byteAt d' (readInode v.sb v.disk n) y
          = if isize ≤ y ∧ y < t then some 0 else byteAt d (readInode v.sb v.disk n) y) := by
  have hside : ZoneSide v.sb v.disk d := he.rest
  refine clearLoop_spec hv.layout hv.small hn hn.1 ht fileRounds he.zones_disk
    (hside.readInode hv.layout hn.1) hle (.inr ?_)
  unfold blockSize fileRounds
  omega

/-- An extension that does not halt. -/
theorem inodeTruncate_returns (hv : v.Inv) (hp : v.inodes.get p = some inode) (hlt : inode.size < t)
    (ht : t < 2 ^ 32) (hrest : ∀ s ∈ rest, IsSlot s.1 s.2)
    (hc : Clean v.disk (v.has inode.index) (extendSlots inode.size t ++ rest)
      (freeZones v.sb v.disk)) : ∃ r w, inodeTruncate v p t = .ok (r, w) := by
  obtain ⟨hidx, hsize⟩ := hv.live hp
  unfold inodeTruncate
  rw [hp]
  simp only []
  rw [if_neg (by omega), if_pos hlt]
  obtain ⟨ino, hg, _⟩ := extendZone_grown hv.layout hv.small hidx hrest t
    (Ext.refl hv.zones inode.index) (by rw [← hsize]; exact hc)
  rw [← hsize] at hg
  generalize extendZone v.sb v.disk (readInode v.sb v.disk inode.index) t = q at hg ⊢
  obtain ⟨ok, d, ino1⟩ := q
  cases ok with
  | false => exact ⟨_, _, rfl⟩
  | true =>
    obtain ⟨ok, d', hrun, _⟩ := clearLoop_ext hv hidx hg.ext (Nat.le_of_lt hlt) ht
    simp only [] at hrun ⊢
    rw [hrun]
    cases ok <;> exact ⟨_, _, rfl⟩

/-- **`inode_truncate` to a larger size**, on a file whose blocks are all mapped. -/
theorem inodeTruncate_growth (hv : v.Inv) (hp : v.inodes.get p = some inode)
    (hmap : ∀ b, b ≤ inode.size / blockSize → v.Mapped inode.index b) (hlt : inode.size < t)
    (hlim : t < maxSize) (hrest : ∀ s ∈ rest, IsSlot s.1 s.2)
    (hc : Clean v.disk (v.has inode.index) (extendSlots inode.size t ++ rest)
      (freeZones v.sb v.disk)) :
    ∃ r w, inodeTruncate v p t = .ok (r, w) ∧ Growth v p inode t r w := by
  obtain ⟨hidx, hsize⟩ := hv.live hp
  have hmax : maxSize + blockSize = maxOffset := rfl
  have h32 : maxSize < 2 ^ 32 := by decide
  have hround : roundSlots inode.size t = extendSlots inode.size t := if_pos hlt
  obtain ⟨r, w, hret⟩ := inodeTruncate_returns hv hp hlt (Nat.lt_trans hlim h32) hrest hc
  refine ⟨r, w, hret, ?_⟩
  have ht := inodeTruncate_cases hv hp hrest (fun _ => hc) hret
  have hneg : ¬ (0 : Int) ≤ enospc := by decide
  cases ht with
  | same h => omega
  | shrunk h _ _ => omega
  | gap _ hg h =>
    obtain ⟨ok, d', hrun, hok, _⟩ := clearLoop_ext hv hidx hg.ext (Nat.le_of_lt hlt) (Nat.lt_trans hlim h32)
    cases hrun.symm.trans h
    have hgap := hok.trans (hg.gap (hmap _ (Nat.le_refl _)) hlt hlim)
    exact ⟨fun _ => ⟨hlt, fun h => absurd (hgap.mpr h) (by simp)⟩, fun h => absurd h hneg,
      fun h => absurd h hneg, fun h => absurd h hneg⟩
  | full _ hg =>
    refine ⟨fun _ => ⟨hlt, fun _ => ⟨hg.keeps_disk hv hp, hp, fun hb => ⟨(hg.full hb).2 rfl, ?_⟩⟩⟩,
      fun h => absurd h hneg, fun h => absurd h hneg, fun h => absurd h hneg⟩
    rw [hround]
    exact hg.takes.lack rfl hb
  | @grown d d' ino _ hg h =>
    obtain ⟨ok, d'', hrun, hok, hbytes⟩ := clearLoop_ext hv hidx hg.ext (Nat.le_of_lt hlt)
      (Nat.lt_trans hlim h32)
    cases hrun.symm.trans h
    have hgap := (hg.gap (hmap _ (Nat.le_refl _)) hlt hlim).mp (hok.mp rfl)
    obtain ⟨hi, hsz⟩ := grown_fields t inode.size (Nat.lt_trans hlim h32)
      (hsize.trans (iSize_congr hg.ext.head).symm)
    have hnow : grownSize inode.size t = t := by
      have hdiv : inode.size / blockSize ≤ t / blockSize :=
        Nat.div_le_div_right (Nat.le_of_lt hlt)
      unfold grownSize
      rw [extendStart_eq hlim, extendStart_eq (Nat.lt_trans hlt hlim), if_neg (by omega)]
    rw [hnow] at hsz
    generalize (if extendStart t < extendStart inode.size then ino else setSize ino t) = ino'
      at hi hsz
    obtain ⟨hd, hcopy⟩ := hv.cleared hp hg.ext h
    obtain ⟨hk, hzero, hm, hfree⟩ := hg.keeps hv hp hd (by omega) (fun y h1 h2 => by
      have := hok.mp rfl y h1 h2
      rwa [Nat.mod_eq_of_lt (block_lt (by omega))] at this) (hbytes rfl (by omega)) hi
    obtain ⟨hslots, _, _⟩ := hv.written hp hg hcopy hi
    refine ⟨fun h => absurd h (by decide), fun _ => ⟨hk, ?_, hzero, fun b hb => ?_⟩, fun _ => hgap,
      fun _ => ?_⟩
    · rw [truncateEnd_get hp, hsz, Nat.max_eq_right (Nat.le_of_lt hlt)]
    · rw [Nat.max_eq_right (Nat.le_of_lt hlt)] at hb
      have hb16 : b < 2 ^ 16 := Nat.lt_of_le_of_lt hb (block_lt (by omega))
      by_cases hbs : b ≤ inode.size / blockSize
      · exact hk.mapped hidx hb16 (hmap b hbs)
      · exact hm b hb16 (hg.got rfl (zoneSlot b, blockPath b)
          (spine_extend hlim (by omega) (by omega) hb _ (mem_spine b)))
    · rw [show (truncateEnd v p inode.index d' ino').sb = v.sb from rfl, hfree, hround]
      exact ⟨hg.takes.cost rfl, fun x hx => hg.has hx (hslots hx)⟩

end Growth

/-! ## Creating -/

/-- Disks that hold the same inodes and the same zones in use hold the same files. -/
theorem fileAt_congr (hz : Zones v.sb v.disk (Allocated v.sb v.disk) (readInode v.sb v.disk))
    (hsb : w.sb = v.sb)
    (hread : ∀ m, Allocated v.sb v.disk m → readInode v.sb w.disk m = readInode v.sb v.disk m)
    (hzone : ∀ b, v.sb.sFirstdatazone ≤ b → w.disk b = v.disk b)
    (hm : Allocated v.sb v.disk m) :
    (b < 2 ^ 16 → (w.Mapped m b ↔ v.Mapped m b))
      ∧ (y < maxOffset → w.fileAt m y = v.fileAt m y) := by
  have hslots : ∀ {k p}, IsSlot k p → zoneOf w.disk (readInode v.sb w.disk m) k p
      = zoneOf v.disk (readInode v.sb v.disk m) k p := by
    intro k p hs
    refine zoneOf_congr (fun j q hq h0 => ?_) (fun l _ => by rw [hread m hm]) hs
    unfold zoneMem
    rw [hzone _ (hz.marked hm hq.up h0).1.1]
  refine ⟨fun hb => ?_, fun hy => ?_⟩
  · unfold Volume.Mapped blockZone
    rw [hsb, hslots (blockSlot hb).1]
  · unfold Volume.fileAt
    rw [hsb]
    exact byteAt_congr (hslots (blockSlot (block_lt hy)).1) fun h0 =>
      congrFun (hzone _ (hz.marked hm (blockSlot (block_lt hy)).1 h0).1.1) _

/-- **`inode_create` leaves the files alone.** -/
theorem Created.keeps (hv : v.Inv) {mode : Nat} {r : Option Nat} (hc : Created v mode r w) :
    (∀ m, Allocated v.sb v.disk m → Allocated w.sb w.disk m)
    ∧ (∀ q i, v.inodes.get q = some i → w.inodes.get q = some i)
    ∧ (∀ m b, Allocated v.sb v.disk m → b < 2 ^ 16 → (w.Mapped m b ↔ v.Mapped m b))
    ∧ (∀ m y, Allocated v.sb v.disk m → y < maxOffset → w.fileAt m y = v.fileAt m y)
    ∧ (∀ z, z ∈ freeZones w.sb w.disk → z ∈ freeZones v.sb v.disk ∧ w.disk z = v.disk z)
    ∧ (bitAt v.disk v.sb.zmapStart 0 = true → bitAt w.disk w.sb.zmapStart 0 = true) := by
  have hle := inodeZoneIndex_le hv.layout
  cases hc with
  | @none d himap htab hzmap hbit =>
    have hfile := fun {m b y} => fileAt_congr (w := { v with disk := d }) (m := m) (b := b) (y := y)
      hv.zones rfl (fun m hm => readInode_congr hv.layout hm.1 (htab _ (Nat.le_add_right ..)))
      fun b hb => htab b (Nat.le_trans hle hb)
    refine ⟨fun m hm => ?_, fun _ _ h => h, fun m b hm => (hfile (y := 0) hm).1,
      fun m y hm => (hfile (b := 0) hm).2, fun z hz => ?_, hbit⟩
    · rw [show Allocated v.sb d = Allocated v.sb v.disk from allocated_congr himap]
      exact hm
    · rw [freeZones_congr hzmap] at hz
      exact ⟨hz, htab z (Nat.le_trans hle (mem_freeZones.mp hz).1)⟩
  | @made n z d hn hun hz0 himap hread hself hzone hfree hzmap hbit hzones =>
    have hne : ∀ m, Allocated v.sb v.disk m → m ≠ n := by
      intro m hm h
      have := hm.2
      rw [h, hun] at this
      cases this
    have hfile := fun {m b y} => fileAt_congr (w := { v with
        disk := d
        inodes := (v.inodes.alloc ⟨n, 0, 0, 0⟩).modify v.inodes.next
          fun i => { i with mode := mode }
        list := v.inodes.next :: v.list }) (m := m) (b := b) (y := y)
      hv.zones rfl (fun m hm => hread m hm.1 (hne m hm)) hzone
    refine ⟨fun m hm => ?_, fun q i hq => ?_, fun m b hm => (hfile (y := 0) hm).1,
      fun m y hm => (hfile (b := 0) hm).2, fun z' hz' => ?_, fun h => by rw [hbit]; exact h⟩
    · rw [show Allocated v.sb d = _ from allocated_insert hn himap]
      exact Or.inl hm
    · rw [Store.modify_ne (Nat.ne_of_lt (Store.lt_next hq))]
      exact Store.alloc_of_some hq
    · refine ⟨?_, hzone z' (mem_freeZones.mp hz').1⟩
      rw [hfree]
      exact List.mem_cons_of_mem _ hz'

/-- The new inode is empty, and has its first block. -/
theorem Created.new (hv : v.Inv) {mode q : Nat} (hc : Created v mode (some q) w) :
    ∃ n, v.inodes.get q = Option.none ∧ w.inodes.get q = some ⟨n, mode, 0, 0⟩
      ∧ ¬ Allocated v.sb v.disk n ∧ w.Mapped n 0 := by
  cases hc with
  | @made n z d hn hun hz0 himap hread hself hzone hfree hzmap hbit hzones =>
    refine ⟨n, v.inodes.fresh _ (Nat.le_refl _), ?_, fun h => ?_, ?_⟩
    · rw [Store.modify_self, Store.alloc_self]
      rfl
    · have := h.2
      rw [hun] at this
      cases this
    · show iZone (readInode v.sb d n) 0 ≠ 0
      rw [iZone_congr hself (by omega), iZone_setZone_self]
      have hzone' := mem_freeZones.mp (show z ∈ freeZones v.sb v.disk by rw [hfree]; simp)
      have := hv.small
      omega

end Cyanurus
