import Cyanurus.Fs.Content

/-!
# Writing and reading a file

`inode_write` on a file all of whose blocks up to the one behind its last byte are mapped.
One round grows the file if it has to, by the bytes of one block, and writes them; the
first one also clears the bytes behind the old end, if it finds their blocks. Over the whole
loop some number `k` of bytes are written: all of them, or those for which there were zones.

`inode_read` copies out what the file contains, up to its size.
-/

namespace Cyanurus

variable {v w u : Volume} {p b y : Nat} {inode : Inode} {data : Bytes}
  {curStart curSize start k size : Nat} {src : Nat → UInt8}

/-! ## One round -/

/-- The numbers of a round that starts at `curStart` with `curSize` bytes to go. -/
theorem round_arith (hE : curStart + curSize < maxSize) :
    copySize curStart curSize ≤ curSize
    ∧ curStart % blockSize + copySize curStart curSize ≤ blockSize
    ∧ curStart + copySize curStart curSize ≤ (curStart / blockSize + 1) * blockSize
    ∧ (curStart + copySize curStart curSize) % 2 ^ 32 = curStart + copySize curStart curSize
    ∧ (curSize + 2 ^ 32 - copySize curStart curSize) % 2 ^ 32 = curSize - copySize curStart curSize
    ∧ (curStart / blockSize + 1) % 2 ^ 16 = curStart / blockSize + 1
    ∧ ((curStart + copySize curStart curSize) / blockSize = curStart / blockSize + 1
        ∨ copySize curStart curSize = curSize
          ∧ (curStart + curSize) / blockSize = curStart / blockSize) := by
  have hmax : maxSize = 268431360 := rfl
  have hbs : blockSize = 4096 := rfl
  unfold copySize
  simp only []
  rw [hbs]
  split <;> omega

/-- The numbers that a transfer of `size` bytes at `start` begins with. -/
theorem range_arith (hE : start + size < maxSize) :
    start / blockSize % 2 ^ 16 = start / blockSize
    ∧ (start + size) % 2 ^ 32 / blockSize % 2 ^ 16 = (start + size) / blockSize
    ∧ (start + size) / blockSize + 2 ≤ start / blockSize + fileRounds := by
  have hmax : maxSize = 268431360 := rfl
  unfold blockSize fileRounds
  omega

/-- Where the loops are: in the block of the next byte, or behind the last block. -/
def OnRound (stop zone curStart curSize : Nat) : Prop :=
  zone = curStart / blockSize ∧ stop = (curStart + curSize) / blockSize ∨ curSize = 0 ∧ zone = stop + 1

theorem OnRound.round {stop zone : Nat} (h : OnRound stop zone curStart curSize)
    (hE : curStart + curSize < maxSize) : (zone = stop + 1 ∧ curSize = 0)
      ∨ (zone ≤ stop ∧ zone = curStart / blockSize ∧ OnRound stop (zone + 1)
          (curStart + copySize curStart curSize) (curSize - copySize curStart curSize)) := by
  rcases h with ⟨hz, hs⟩ | ⟨h0, hz⟩
  · obtain ⟨hcopy, _, _, _, _, _, hnext⟩ := round_arith hE
    have hdiv : curStart / blockSize ≤ (curStart + curSize) / blockSize :=
      Nat.div_le_div_right (Nat.le_add_right _ _)
    refine .inr ⟨by omega, hz, ?_⟩
    unfold OnRound
    rw [show curStart + copySize curStart curSize + (curSize - copySize curStart curSize)
      = curStart + curSize by omega]
    omega
  · exact .inl ⟨hz, h0⟩

/-- The volume after a round has written `copy` bytes to block `b` of inode `n`, at `off`. -/
def Volume.writeAt (v : Volume) (n b off : Nat) (data : Bytes) (cur copy : Nat) : Volume :=
  { v with
    disk := (blockWrite v.disk (getBlock v.sb v.disk n b)
      ((blockRead v.disk (getBlock v.sb v.disk n b)).copy off data cur copy)) }

@[simp] theorem Volume.writeAt_sb {n off cur copy : Nat} : (v.writeAt n b off data cur copy).sb = v.sb := rfl

section Block

variable {off copy : Nat}

/-- An offset in the bytes of block `b` from `off` on. -/
theorem block_arith (hb : b < 2 ^ 16) (hfit : off + copy ≤ blockSize)
    (h1 : b * blockSize + off ≤ y) (h2 : y < b * blockSize + off + copy) :
    y < maxOffset ∧ y / blockSize = b ∧ y % blockSize = y - b * blockSize := by
  unfold maxOffset
  unfold blockSize at *
  omega

/-- What the write of a block is to the forest of zones. -/
theorem writeAt_data (hv : v.Inv) (hp : v.inodes.get p = some inode) (hb : b < 2 ^ 16)
    (h0 : v.Mapped inode.index b) (off : Nat) (data : Bytes) (cur copy : Nat) :
    getBlock v.sb v.disk inode.index b ≠ 0
    ∧ (v.writeAt inode.index b off data cur copy).Inv
    ∧ DataOnly v.disk (v.writeAt inode.index b off data cur copy).disk
        (readInode v.sb v.disk inode.index) := by
  have hidx := (hv.live hp).1
  have hne : getBlock v.sb v.disk inode.index b ≠ 0 := by
    rw [getBlock_eq hv.layout hv.small hv.zones.sited hidx rfl hb]
    exact h0
  exact ⟨hne, hv.writeBlock hp hb hne _⟩

/-- The bytes of the file that is written. -/
theorem writeAt_byteAt (hv : v.Sited) (hidx : Allocated v.sb v.disk inode.index) (hb : b < 2 ^ 16)
    (h0 : v.Mapped inode.index b) (off : Nat) (data : Bytes) (cur copy : Nat) (hy : y < maxOffset) :
    byteAt (v.writeAt inode.index b off data cur copy).disk (readInode v.sb v.disk inode.index) y
      = if y / blockSize = b ∧ off ≤ y % blockSize ∧ y % blockSize < off + copy
        then some (data (cur + (y % blockSize - off)))
        else byteAt v.disk (readInode v.sb v.disk inode.index) y := by
  have hlt : blockZone v.disk (readInode v.sb v.disk inode.index) b < 2 ^ 16 :=
    ((hv.zones.isZone hidx (blockSlot hb).1 h0).bounds hv.layout hv.small).1
  unfold Volume.writeAt
  rw [getBlock_eq hv.layout hv.small hv.zones hidx rfl hb, blockWrite_zone hlt, blockRead_zone hlt,
    byteAt_update hv.zones hidx hb h0 _ hy]
  by_cases hyb : y / blockSize = b
  · rw [if_pos hyb]
    unfold Bytes.copy
    by_cases hr : off ≤ y % blockSize ∧ y % blockSize < off + copy
    · rw [if_pos hr, if_pos ⟨hyb, hr⟩]
    · rw [if_neg hr, if_neg fun h => hr h.2]
      refine (byteAt_eq_some.mpr ⟨by rw [hyb]; exact h0, ?_⟩).symm
      unfold fileByte
      rw [hyb]
  · rw [if_neg hyb, if_neg fun h => hyb h.1]

/-- **A block of a file is written.** -/
theorem writeAt_keeps (hv : v.Inv) (hp : v.inodes.get p = some inode) (hb : b < 2 ^ 16)
    (h0 : v.Mapped inode.index b) (data : Bytes) (cur : Nat) (hfit : off + copy ≤ blockSize) :
    v.Keeps (v.writeAt inode.index b off data cur copy) p inode.index
      (fun y => b * blockSize + off ≤ y ∧ y < b * blockSize + off + copy)
    ∧ (∀ y, b * blockSize + off ≤ y → y < b * blockSize + off + copy →
        (v.writeAt inode.index b off data cur copy).fileAt inode.index y
          = some (data (cur + (y - (b * blockSize + off)))))
    ∧ freeZones v.sb (v.writeAt inode.index b off data cur copy).disk = freeZones v.sb v.disk := by
  have hidx := (hv.live hp).1
  have hl := hv.layout
  obtain ⟨_, hinv, hdata⟩ := writeAt_data hv hp hb h0 off data cur copy
  have hself := fun {y} => writeAt_byteAt (y := y) hv.sited hidx hb h0 off data cur copy
  have hzonly := hdata.zonesOnly hv.zones.sited hidx
  have hread : ∀ {m}, Allocated v.sb v.disk m →
      readInode v.sb (v.writeAt inode.index b off data cur copy).disk m = readInode v.sb v.disk m :=
    fun hm => hzonly.readInode hl hm.1
  have hfree : freeZones v.sb (v.writeAt inode.index b off data cur copy).disk
      = freeZones v.sb v.disk := freeZones_congr fun z hz => hzonly.zmapBit hl hz
  refine ⟨⟨hinv, rfl, hzonly.zoneSide.allocated hl, rfl, rfl, fun _ => rfl,
    fun {m b'} hm hb' hmb => ?_, fun {m y c} hm hy hR hc => ?_, fun {z} hz => ?_, fun hb0 => ?_⟩,
    fun y h1 h2 => ?_, hfree⟩
  · unfold Volume.Mapped
    rw [Volume.writeAt_sb, hread hm]
    exact fun h => hmb ((hdata.zoneOf_eq hv.zones.sited hidx hm (blockSlot hb').1).symm.trans h)
  · unfold Volume.fileAt
    rw [Volume.writeAt_sb, hread hm]
    by_cases hmn : m = inode.index
    · subst hmn
      rw [hself hy, if_neg fun h => ?_]
      · exact hc
      · have hmod := Nat.div_add_mod y blockSize
        rw [h.1, Nat.mul_comm] at hmod
        exact hR rfl (by omega)
    · rw [hdata.byteAt hv.zones.sited hidx hm hmn hy]
      exact hc
  · rw [Volume.writeAt_sb, hfree] at hz
    exact ⟨hz, hdata.free hv.zones hidx (mem_freeZones.mp hz).2.2⟩
  · rw [Volume.writeAt_sb, hzonly.zmapBit0 hl]
    exact hb0
  · obtain ⟨hy, hyb, hym⟩ := block_arith hb hfit h1 h2
    unfold Volume.fileAt
    rw [Volume.writeAt_sb, hread hidx, hself hy,
      if_pos ⟨hyb, by omega, by omega⟩,
      show y % blockSize - off = y - (b * blockSize + off) by omega]

end Block

/-- Up to the end of the block that is mapped last there is nothing to look for. -/
theorem gapMapped_of_block {n isize t : Nat} (h : t ≤ (isize / blockSize + 1) * blockSize) :
    v.GapMapped n isize t := fun b h1 h2 => by
  have := Nat.lt_of_mul_lt_mul_right (Nat.lt_of_lt_of_le h2 h)
  omega

section Rounds

variable {rest : List (Nat × List Nat)}

/-- `growTo`, on a file whose blocks are all mapped. -/
theorem growTo_growth (hv : v.Inv) (hp : v.inodes.get p = some inode) {t : Nat}
    (hmap : ∀ b, b ≤ inode.size / blockSize → v.Mapped inode.index b) (hlim : t < maxSize)
    (hrest : ∀ s ∈ rest, IsSlot s.1 s.2)
    (hc : Clean v.disk (v.has inode.index) (roundSlots inode.size t ++ rest)
      (freeZones v.sb v.disk)) :
    ∃ r w, growTo v p inode t = .ok (r, w) ∧ Growth v p inode t r w := by
  unfold growTo
  by_cases hlt : t > inode.size
  · rw [if_pos hlt]
    rw [roundSlots, if_pos hlt] at hc
    exact inodeTruncate_growth hv hp hmap hlt hlim hrest hc
  · have hmax : max inode.size t = inode.size := by omega
    rw [if_neg hlt]
    refine ⟨0, v, rfl, fun h => absurd h (by decide), fun _ =>
      ⟨Volume.Keeps.refl hv p _, by rw [hmax]; exact hp, fun y h1 h2 => by omega, ?_⟩,
      fun _ => gapMapped_of_block ?_, fun _ => ?_⟩
    · rw [hmax]
      exact hmap
    · exact Nat.le_trans (by omega) (Nat.le_of_lt (Nat.lt_mul_of_div_lt (Nat.lt_succ_self _) (by decide)))
    · rw [show roundSlots inode.size t = [] from if_neg hlt]
      exact ⟨rfl, fun s _ => by simp⟩

end Rounds

/-- `k` bytes of `src` are in the file from `start` on; the size is adjusted. -/
structure Written (v w : Volume) (p : Nat) (inode : Inode) (start k : Nat) (src : Nat → UInt8) :
    Prop where
  keeps : v.Keeps w p inode.index fun y => start ≤ y ∧ y < start + k
  data : ∀ i, i < k → w.fileAt inode.index (start + i) = some (src i)
  get : w.inodes.get p = some { inode with size := max inode.size (start + k) }
  mapped : ∀ b, b ≤ max inode.size (start + k) / blockSize → w.Mapped inode.index b

/-- The same behind the end of the file: the bytes from there to `start` are cleared. -/
structure Patched (v w : Volume) (p : Nat) (inode : Inode) (start k : Nat) (src : Nat → UInt8) :
    Prop where
  keeps : v.Keeps w p inode.index fun y => min inode.size start ≤ y ∧ y < start + k
  zero : ∀ y, inode.size ≤ y → y < start → w.fileAt inode.index y = some 0
  data : ∀ i, i < k → w.fileAt inode.index (start + i) = some (src i)
  get : w.inodes.get p = some { inode with size := max inode.size (start + k) }
  mapped : ∀ b, b ≤ max inode.size (start + k) / blockSize → w.Mapped inode.index b

theorem Patched.written (h : Patched v w p inode start k src)
    (hstart : start ≤ inode.size) : Written v w p inode start k src :=
  ⟨h.keeps.mono fun y hy => by omega, h.data, h.get, h.mapped⟩

/-- **One round** of a write: it writes its bytes, or the file cannot be grown for them. -/
theorem round_patched (hv : v.Inv) (hp : v.inodes.get p = some inode)
    (curData : Nat) (data : Bytes) (hE : curStart + curSize < maxSize) (hsize : inode.size < maxSize)
    (hmap : ∀ b, b ≤ inode.size / blockSize → v.Mapped inode.index b)
    {rest : List (Nat × List Nat)} (hrest : ∀ s ∈ rest, IsSlot s.1 s.2)
    (hc : Clean v.disk (v.has inode.index)
      (roundSlots inode.size (curStart + copySize curStart curSize) ++ rest) (freeZones v.sb v.disk)) :
    ∃ r w, growTo v p inode (curStart + copySize curStart curSize) = .ok (r, w)
      ∧ Growth v p inode (curStart + copySize curStart curSize) r w
      ∧ (0 ≤ r → getBlock w.sb w.disk inode.index (curStart / blockSize) ≠ 0 ∧ ∃ u,
          u = w.writeAt inode.index (curStart / blockSize) (curStart % blockSize) data curData
              (copySize curStart curSize)
          ∧ Patched v u p inode curStart (copySize curStart curSize) (fun i => data (curData + i))
          ∧ freeZones v.sb u.disk = freeZones w.sb w.disk
          ∧ (∀ s, IsSlot s.1 s.2 → u.has inode.index s = w.has inode.index s)
          ∧ Clean u.disk (u.has inode.index) rest (freeZones u.sb u.disk)) := by
  obtain ⟨hcopy, hfit, ht, _, _, _, _⟩ := round_arith hE
  generalize copySize curStart curSize = copy at hcopy hfit ht hc ⊢
  have hb : curStart / blockSize < 2 ^ 16 := block_lt (by
    have : maxSize + blockSize = maxOffset := rfl
    omega)
  obtain ⟨r, w, hgrow, hg⟩ := growTo_growth hv hp (t := curStart + copy) hmap (by omega) hrest hc
  refine ⟨r, w, hgrow, hg, fun hr => ?_⟩
  obtain ⟨hk, hget, hzero, hmapped⟩ := hg.done hr
  have h32 : maxSize < 2 ^ 32 := by decide
  obtain ⟨_, _, _, _, hclean⟩ := (growTo_inv hv hp (by omega) hrest hc hgrow).2 hr
  have h0 : w.Mapped inode.index (curStart / blockSize) :=
    hmapped _ (Nat.div_le_div_right (by omega))
  obtain ⟨hk', hdata, hfree⟩ := writeAt_keeps hk.inv hget hb h0 data curData hfit
  obtain ⟨hne, _, hdat⟩ := writeAt_data hk.inv hget hb h0 (curStart % blockSize) data curData copy
  have hmod : curStart / blockSize * blockSize + curStart % blockSize = curStart := by
    rw [Nat.mul_comm]
    exact Nat.div_add_mod _ _
  rw [hmod] at hk' hdata
  have hw : Allocated w.sb w.disk inode.index := by
    rw [hk.alloc]
    exact (hv.live hp).1
  have hmax : maxSize + blockSize = maxOffset := rfl
  have hclean' := hk.inv.clean_data hget hdat hrest hclean
  refine ⟨hne, _, rfl, ⟨(hk.trans hk').mono fun y hy => ?_, fun y h1 h2 => ?_, fun i hi => ?_, hget,
    fun b hb' => ?_⟩, ?_, fun s hs => ?_, hclean'⟩
  · rcases hy with hy | hy <;> omega
  · -- a byte of the hole was cleared, and the block is written behind it
    exact hk'.bytes hw (by omega) (fun _ => by omega) (hzero y h1 (by omega))
  · have := hdata (curStart + i) (by omega) (by omega)
    rw [show curStart + i - curStart = i by omega] at this
    exact this
  · refine hk'.mapped hw ?_ (hmapped b hb')
    refine Nat.lt_of_le_of_lt hb' (block_lt ?_)
    omega
  · rw [← hk.sb]
    exact hfree
  · unfold Volume.has hasZone
    rw [Volume.writeAt_sb, (hdat.zonesOnly hk.inv.zones.sited hw).readInode hk.inv.layout hw.1,
      hdat.zoneOf_eq hk.inv.zones.sited hw hw hs]

/-! ## The loop of `inode_write` -/

theorem roundSize_eq {isize next : Nat} (hsize : isize < maxSize) (hnext : next < maxSize) :
    roundSize isize next = max isize next := by
  unfold roundSize grownSize
  rw [extendStart_eq hsize, extendStart_eq hnext]
  by_cases h : next > isize
  · have : isize / blockSize ≤ next / blockSize := Nat.div_le_div_right (Nat.le_of_lt h)
    rw [if_pos h, if_neg (by omega), Nat.max_eq_right (Nat.le_of_lt h)]
  · rw [if_neg h, Nat.max_eq_left (by omega)]

/-- No byte was written, and all of them are kept. -/
theorem Volume.Keeps.patched (hk : v.Keeps w p inode.index fun _ => False)
    (hidx : Allocated v.sb v.disk inode.index) (hget : w.inodes.get p = some inode)
    (hsize : inode.size < maxSize) (hmap : ∀ b, b ≤ inode.size / blockSize → v.Mapped inode.index b)
    (hstart : start ≤ inode.size) (src : Nat → UInt8) : Patched v w p inode start 0 src := by
  have hmax : max inode.size (start + 0) = inode.size := by omega
  refine ⟨hk.mono fun _ h => h.elim, fun y h1 h2 => by omega,
    fun i hi => absurd hi (Nat.not_lt_zero i), by rw [hmax]; exact hget, fun b hb => ?_⟩
  rw [hmax] at hb
  refine hk.mapped hidx (Nat.lt_of_le_of_lt hb (block_lt ?_)) (hmap b hb)
  have : maxSize + blockSize = maxOffset := rfl
  omega

/-- Bytes written after the ones that are written already. -/
theorem Patched.append {l : Nat} {src' : Nat → UInt8}
    (hidx : Allocated v.sb v.disk inode.index) (hlim : start + k ≤ maxOffset)
    (h : Patched v w p inode start k src)
    (h' : Written w u p { inode with size := max inode.size (start + k) } (start + k) l src')
    (hsrc : ∀ i, src (k + i) = src' i) : Patched v u p inode start (k + l) src := by
  have hmax : max (max inode.size (start + k)) (start + k + l) = max inode.size (start + (k + l)) := by
    omega
  have hw : Allocated w.sb w.disk inode.index := by
    rw [h.keeps.alloc]
    exact hidx
  refine ⟨(h.keeps.trans h'.keeps).mono fun y hy => ?_, fun y h1 h2 => ?_, fun i hi => ?_, ?_,
    fun b hb => ?_⟩
  · rcases hy with hy | hy <;> omega
  · exact h'.keeps.bytes hw (by omega) (fun _ => by omega) (h.zero y h1 h2)
  · by_cases hik : i < k
    · exact h'.keeps.bytes hw (by omega) (fun _ => by omega) (h.data i hik)
    · have := h'.data (i - k) (by omega)
      rw [← hsrc, show k + (i - k) = i by omega, show start + k + (i - k) = start + i by omega] at this
      exact this
  · rw [h'.get]
    simp only [hmax]
  · exact h'.mapped b (by simp only [hmax]; exact hb)

section Loop

variable {size stop fuel zone curData curStart curSize : Nat}

theorem writeLoop_stop (h : zone > stop) :
    writeLoop p size stop data (fuel + 1) v zone curData curStart curSize = .ok (ssize size, v) := by
  rw [writeLoop, if_pos h]

theorem writeLoop_failed (hp : v.inodes.get p = some inode) (hz : zone ≤ stop) {t : Int}
    (hg : growTo v p inode ((curStart + copySize curStart curSize) % 2 ^ 32) = .ok (t, w))
    (ht : t < 0) : writeLoop p size stop data (fuel + 1) v zone curData curStart curSize
      = .ok (if size = curSize then t else ssize (size - curSize), w) := by
  rw [writeLoop, if_neg (by omega), hp]
  simp only [hg, bind, Except.bind]
  rw [if_pos ht]

theorem writeLoop_next (hp : v.inodes.get p = some inode) (hz : zone ≤ stop) {t : Int}
    (hg : growTo v p inode ((curStart + copySize curStart curSize) % 2 ^ 32) = .ok (t, w))
    (ht : 0 ≤ t) (h0 : getBlock w.sb w.disk inode.index zone ≠ 0)
    (hfit : curStart % blockSize + copySize curStart curSize ≤ blockSize) :
    writeLoop p size stop data (fuel + 1) v zone curData curStart curSize
      = writeLoop p size stop data fuel
          (w.writeAt inode.index zone (curStart % blockSize) data curData (copySize curStart curSize))
          ((zone + 1) % 2 ^ 16) (curData + copySize curStart curSize)
          ((curStart + copySize curStart curSize) % 2 ^ 32)
          ((curSize + 2 ^ 32 - copySize curStart curSize) % 2 ^ 32) := by
  rw [writeLoop, if_neg (by omega), hp]
  simp only [hg, bind, Except.bind]
  rw [if_neg (by omega), if_neg h0, if_neg (by omega)]
  rfl

end Loop

/--
**The loop of `inode_write` writes the bytes it has zones for.** If it begins behind the end of
the file, the first round clears the bytes between, unless it does not find a block of them or has
no zones.
-/
theorem writeLoop_patched (size stop : Nat) (data : Bytes) : ∀ (fuel : Nat) {v : Volume}
    {inode : Inode} {zone curData curStart curSize : Nat}, v.Inv → v.inodes.get p = some inode →
    curStart + curSize < maxSize → zone ≤ stop ∨ curStart ≤ inode.size → inode.size < maxSize →
    (∀ b, b ≤ inode.size / blockSize → v.Mapped inode.index b) →
    Clean v.disk (v.has inode.index) (writeSlots stop fuel zone inode.size curStart curSize)
      (freeZones v.sb v.disk) →
    OnRound stop zone curStart curSize → stop + 2 ≤ zone + fuel →
    ∃ r w k, writeLoop p size stop data fuel v zone curData curStart curSize = .ok (r, w)
      ∧ k ≤ curSize
      ∧ (k = curSize ∧ r = ssize size ∧ Patched v w p inode curStart k (fun i => data (curData + i))
          ∧ (zone ≤ stop →
              v.GapMapped inode.index inode.size (curStart + copySize curStart curSize))
          ∧ (freeZones v.sb v.disk).length = (freeZones w.sb w.disk).length + missing
              (v.has inode.index) (writeSlots stop fuel zone inode.size curStart curSize)
        ∨ inode.size < curStart + curSize ∧ (k < curSize ∨ k = 0)
          ∧ (curStart ≤ inode.size →
              k < curSize ∧ Patched v w p inode curStart k (fun i => data (curData + i)))
          ∧ (∃ e : Int, e < 0 ∧ r = if size = curSize - k then e else ssize (size - (curSize - k)))
          ∧ (0 < k → (curStart + k) % blockSize = 0)
          ∧ (v.GapMapped inode.index inode.size (curStart + copySize curStart curSize) →
              bitAt v.disk v.sb.zmapStart 0 = true → freeZones w.sb w.disk = []
              ∧ (freeZones v.sb v.disk).length < missing (v.has inode.index)
                  (writeSlots stop fuel zone inode.size curStart curSize)))
  | 0, v, inode, zone, curData, curStart, curSize, _, _, hE, _, _, _, _, hzone, hfuel => by
    have := hzone.round hE
    omega
  | fuel + 1, v, inode, zone, curData, curStart, curSize, hv, hp, hE, hgap, hsize, hmap, hc,
      hzone, hfuel => by
      rcases hzone.round hE with ⟨hs, hz⟩ | ⟨hle, hz, hround⟩
      · rw [writeLoop_stop (by omega), writeSlots, if_pos (by omega)]
        exact ⟨_, v, 0, rfl, Nat.zero_le _, Or.inl ⟨hz.symm, rfl,
          (Volume.Keeps.refl hv p _).patched (hv.live hp).1 hp hsize hmap (hgap.resolve_left (by omega)) _,
          fun h => by omega, rfl⟩⟩
      · obtain ⟨hcopy, hfit, hborder, hm1, hm2, hm3, hnext⟩ := round_arith hE
        rw [← hz] at hm3
        have hslots := @writeSlots_isSlot stop fuel
        rw [writeSlots_succ hle, hm1, hm2, hm3, roundSize_eq hsize (by omega)] at hc ⊢
        obtain ⟨r, w, hgrow, hg, hdone⟩ := round_patched hv hp curData data hE hsize hmap hslots hc
        rw [← hz] at hdone
        have hgrow' : growTo v p inode ((curStart + copySize curStart curSize) % 2 ^ 32) = .ok (r, w) := by
          rw [hm1]
          exact hgrow
        rcases Int.lt_or_le r 0 with hr | hr
        · -- the file cannot be grown for this block
          obtain ⟨hlt, hfail⟩ := hg.failed hr
          refine ⟨_, w, 0, writeLoop_failed hp hle hgrow' hr, Nat.zero_le _, Or.inr ⟨by omega, .inr rfl,
            fun hin => ⟨by omega, ?_⟩, ⟨r, hr, rfl⟩, fun h => absurd h (Nat.lt_irrefl 0),
            fun hgap hb => ?_⟩⟩
          · obtain ⟨hk, hget, _⟩ := hfail (gapMapped_of_block (Nat.le_trans hborder
              (Nat.mul_le_mul_right _ (Nat.succ_le_succ (Nat.div_le_div_right hin)))))
            exact hk.patched (hv.live hp).1 hget hsize hmap hin _
          · obtain ⟨hnone, hlack⟩ := (hfail hgap).2.2 hb
            exact ⟨hnone, Nat.lt_of_lt_of_le hlack
              (missing_mono _ fun s hs => List.mem_append_left _ hs)⟩
        · obtain ⟨hne, u, hu, hpat, hfree, hhas, hclean⟩ := hdone hr
          rw [writeLoop_next hp hle hgrow' hr hne hfit, hm1, hm2, hm3, ← hu]
          obtain ⟨hcost, hgot⟩ := hg.cost hr
          have hfirst := hg.gap hr
          generalize copySize curStart curSize = copy
            at hcopy hborder hnext hround hpat hcost hgot hfirst hclean ⊢
          have hE' : curStart + copy + (curSize - copy) = curStart + curSize := by omega
          have hin : curStart + copy ≤ max inode.size (curStart + copy) := Nat.le_max_right _ _
          obtain ⟨r', x, k, hrun, hk, hend⟩ := @writeLoop_patched size stop data fuel u
            _ (zone + 1) (curData + copy) (curStart + copy) (curSize - copy) hpat.keeps.inv hpat.get
            (by omega) (.inr hin) (show max _ _ < _ by omega) hpat.mapped hclean hround (by omega)
          have hboth : ∀ hx : Patched u x p { inode with size := max inode.size (curStart + copy) }
              (curStart + copy) k (fun i => data (curData + copy + i)),
              Patched v x p inode curStart (copy + k) fun i => data (curData + i) := fun hx => by
            have : maxSize + blockSize = maxOffset := rfl
            exact hpat.append (hv.live hp).1 (by omega) (hx.written hin) fun i => by rw [Nat.add_assoc]
          -- the slots this round has filled are filled for the others
          have hfilled : ∀ s ∈ writeSlots stop fuel (zone + 1) (max inode.size (curStart + copy))
              (curStart + copy) (curSize - copy), u.has inode.index s
                = (v.has inode.index s || decide (s ∈ roundSlots inode.size (curStart + copy))) :=
            fun s hs => (hhas s (hslots s hs)).trans (hgot s (hslots s hs))
          refine ⟨r', x, copy + k, hrun, by omega, ?_⟩
          rw [hpat.keeps.sb] at hend
          simp only [hfree] at hend
          rcases hend with ⟨h1, h2, hx, _, hsum⟩ | ⟨h1, _, hx, ⟨e, he, h3⟩, hk0, h4⟩
          · refine Or.inl ⟨by omega, h2, hboth hx, fun _ => hfirst, ?_⟩
            rw [missing_append hfilled, hcost, hsum]
            omega
          · obtain ⟨h2, hx⟩ := hx hin
            refine Or.inr ⟨?_, .inl (by omega), fun _ => ⟨by omega, hboth hx⟩, ⟨e, he, ?_⟩, fun _ => ?_,
              fun _ hb => ?_⟩
            · exact Nat.lt_of_le_of_lt (Nat.le_max_left _ _) (Nat.lt_of_lt_of_eq h1 hE')
            · rw [h3, Nat.sub_sub]
            · -- this round has filled its block
              rcases Nat.eq_zero_or_pos k with rfl | hk1
              · rcases hnext with h | ⟨h, _⟩
                · unfold blockSize at hborder h ⊢
                  omega
                · omega
              · rw [← Nat.add_assoc]
                exact hk0 hk1
            · -- the zones this round took, and those the others lack
              obtain ⟨h5, h6⟩ := h4 (gapMapped_of_block (Nat.le_trans
                (round_arith (show curStart + copy + (curSize - copy) < maxSize by omega)).2.2.1
                (Nat.mul_le_mul_right _ (Nat.succ_le_succ (Nat.div_le_div_right hin)))))
                (by rw [← hpat.keeps.sb]; exact hpat.keeps.bit0 hb)
              exact ⟨h5, missing_append_lt hfilled hcost h6⟩

/-! ## The zones a write takes -/

section Slots

variable {fuel stop zone isize curStart curSize : Nat}

/-- A write inside a file takes no zones. -/
theorem writeSlots_inside (hE : curStart + curSize < maxSize) (hin : curStart + curSize ≤ isize) :
    writeSlots stop fuel zone isize curStart curSize = [] := by
  induction fuel generalizing zone curStart curSize with
  | zero => rfl
  | succ fuel ih =>
    rcases Nat.lt_or_ge stop zone with hz | hz
    · rw [writeSlots, if_pos hz]
    · obtain ⟨hcopy, _, _, hm1, hm2, _, _⟩ := round_arith hE
      rw [writeSlots_succ hz]
      unfold roundSlots roundSize
      rw [if_neg (by omega), if_neg (by omega)]
      exact ih (by omega) (by omega)

/-- The slots for the blocks from `isize` to `next`, at most three for each. -/
theorem extendSlots_length (isize next : Nat) :
    (extendSlots isize next).length ≤ 3 * (extendStart next - extendStart isize) := by
  have hspines : ∀ l : List Nat, (l.flatMap spine).length ≤ 3 * l.length := by
    intro l
    induction l with
    | nil => exact Nat.le_refl _
    | cons b l ih =>
      have := spine_length b
      rw [List.flatMap_cons, List.length_append, List.length_cons]
      omega
  have h := hspines (List.range' (extendStart isize) (extendStart next - extendStart isize))
  rwa [List.length_range'] at h

/-- A write that begins in a mapped block fills the slots of one new block in each round. -/
theorem missing_writeSlots_le (has : Nat × List Nat → Bool) (hE : curStart + curSize < maxSize)
    (hsize : isize < maxSize) (hcur : curStart / blockSize ≤ isize / blockSize)
    (hzone : OnRound stop zone curStart curSize) :
    missing has (writeSlots stop fuel zone isize curStart curSize) ≤ 3 * (stop + 1 - zone) := by
  refine Nat.le_trans (Nat.le_trans (Finset.card_filter_le ..) (List.toFinset_card_le _)) ?_
  induction fuel generalizing zone isize curStart curSize with
  | zero => exact Nat.zero_le _
  | succ fuel ih =>
    rcases hzone.round hE with ⟨hs, _⟩ | ⟨hle, hz, hround⟩
    · rw [writeSlots, if_pos (by omega)]
      exact Nat.zero_le _
    · obtain ⟨hcopy, _, hborder, hm1, hm2, hm3, _⟩ := round_arith hE
      rw [← hz] at hm3
      rw [writeSlots_succ hle, hm1, hm2, hm3, roundSize_eq hsize (by omega), List.length_append]
      generalize copySize curStart curSize = copy at hcopy hborder hround ⊢
      have hone : (roundSlots isize (curStart + copy)).length ≤ 3 := by
        unfold roundSlots
        split
        · have h1 := extendSlots_length isize (curStart + copy)
          rw [extendStart_eq hsize, extendStart_eq (by omega)] at h1
          have h2 : (curStart + copy) / blockSize ≤ curStart / blockSize + 1 :=
            Nat.div_le_of_le_mul (by rw [Nat.mul_comm]; exact hborder)
          omega
        · exact Nat.zero_le _
      have hmore := ih (show curStart + copy + (curSize - copy) < maxSize by omega)
        (show max isize (curStart + copy) < maxSize by omega)
        (Nat.div_le_div_right (Nat.le_max_right _ _)) hround
      omega

/-- The slots a write visits are those of extensions up to its end. -/
theorem writeSlots_forall {P : Nat × List Nat → Prop} {t : Nat} (hE : curStart + curSize ≤ t) (ht : t < maxSize)
    (hP : ∀ {isize next : Nat}, next ≤ t → ∀ s ∈ extendSlots isize next, P s) :
    ∀ s ∈ writeSlots stop fuel zone isize curStart curSize, P s := by
  induction fuel generalizing zone isize curStart curSize with
  | zero => exact fun s hs => absurd hs (by simp [writeSlots])
  | succ fuel ih =>
    intro s hs
    rcases Nat.lt_or_ge stop zone with hz | hz
    · rw [writeSlots, if_pos hz] at hs
      cases hs
    · obtain ⟨hcopy, _, _, hm1, hm2, _, _⟩ := round_arith (Nat.lt_of_le_of_lt hE ht)
      rw [writeSlots_succ hz] at hs
      rcases List.mem_append.mp hs with hs | hs
      · unfold roundSlots at hs
        split at hs
        · exact hP (by omega) s hs
        · cases hs
      · exact ih (by omega) s hs

/-- A write to the first seven blocks takes direct zones only. -/
theorem writeSlots_direct (hE : curStart + curSize < 7 * blockSize) :
    ∀ s ∈ writeSlots stop fuel zone isize curStart curSize, s.1 ≤ 6 :=
  writeSlots_forall (Nat.le_refl _) (Nat.lt_of_lt_of_le hE (by decide))
    fun hle => extendSlots_direct _ (Nat.lt_of_le_of_lt hle hE)

/-- The slots of the blocks of a file of `t` bytes, the block behind its last byte included. -/
def fileSlots (t : Nat) : List (Nat × List Nat) := (List.range (t / blockSize + 1)).flatMap spine

variable {t : Nat}

theorem mem_fileSlots {s : Nat × List Nat} :
    s ∈ fileSlots t ↔ ∃ b, b ≤ t / blockSize ∧ s ∈ spine b := by
  unfold fileSlots
  simp only [List.mem_flatMap, List.mem_range, Nat.lt_succ_iff]

theorem extendSlots_sub {next : Nat} (hnext : next ≤ t) (ht : t < maxSize) :
    ∀ s ∈ extendSlots isize next, s ∈ fileSlots t := by
  intro s hs
  obtain ⟨b, hb, hsb⟩ := List.mem_flatMap.mp hs
  have h1 := List.mem_range'_1.mp hb
  have h2 : next / blockSize ≤ t / blockSize := Nat.div_le_div_right hnext
  rw [extendStart_eq (Nat.lt_of_le_of_lt hnext ht)] at h1
  exact mem_fileSlots.mpr ⟨b, by omega, hsb⟩

/-- A write visits slots of the file it leads to, and no others. -/
theorem writeSlots_sub {stop fuel zone curStart curSize : Nat} (hE : curStart + curSize ≤ t)
    (ht : t < maxSize) :
    ∀ s ∈ writeSlots stop fuel zone isize curStart curSize, s ∈ fileSlots t :=
  writeSlots_forall hE ht fun hle => extendSlots_sub hle ht

/-- The slots of the new blocks are visited. -/
theorem writeSlots_spine (hE : curStart + curSize < maxSize) (hsize : isize < maxSize)
    (hgap : zone ≤ stop ∨ curStart ≤ isize) (hzone : OnRound stop zone curStart curSize)
    (hfuel : stop + 2 ≤ zone + fuel) (h1 : isize / blockSize < b)
    (h2 : b ≤ (curStart + curSize) / blockSize) :
    ∀ s ∈ spine b, s ∈ writeSlots stop fuel zone isize curStart curSize := by
  induction fuel generalizing zone isize curStart curSize with
  | zero =>
    have := hzone.round hE
    omega
  | succ fuel ih =>
    intro s hs
    rcases hzone.round hE with ⟨hz, h0⟩ | ⟨hle, hz, hround⟩
    · have := Nat.div_le_div_right (c := blockSize) (hgap.resolve_left (by omega))
      rw [h0, Nat.add_zero] at h2
      omega
    · obtain ⟨hcopy, _, _, hm1, hm2, hm3, _⟩ := round_arith hE
      rw [← hz] at hm3
      rw [writeSlots_succ hle, hm1, hm2, hm3, roundSize_eq hsize (by omega)]
      generalize copySize curStart curSize = copy at hcopy hround ⊢
      rcases Nat.lt_or_ge ((curStart + copy) / blockSize) b with hlater | hnow
      · refine List.mem_append_right _ (ih (by omega) (by omega) (.inr (Nat.le_max_right _ _)) hround
          (by omega) ?_ (by rwa [show curStart + copy + (curSize - copy) = curStart + curSize by omega])
          s hs)
        rcases Nat.le_total isize (curStart + copy) with h | h
        · rwa [Nat.max_eq_right h]
        · rwa [Nat.max_eq_left h]
      · refine List.mem_append_left _ ?_
        have hlt : curStart + copy > isize := by
          by_contra hge
          have := Nat.div_le_div_right (c := blockSize) (Nat.le_of_not_lt hge)
          omega
        rw [roundSlots, if_pos hlt]
        exact spine_extend (by omega) hsize h1 hnow s hs

/-- The slots on the way to a mapped block are filled. -/
theorem has_spine {n : Nat} (h : v.Mapped n b) : ∀ s ∈ spine b, v.has n s = true := by
  intro s hs
  obtain ⟨q, hq, rfl⟩ := List.mem_map.mp hs
  refine hasZone_eq_true.mpr fun h0 => h (zoneOf_below_zero h0 ?_)
  exact (List.mem_tails _ _).mp (List.mem_reverse.mp hq)

theorem missing_mapped {n : Nat} (hmap : ∀ b, b ≤ t / blockSize → v.Mapped n b) :
    missing (v.has n) (fileSlots t) = 0 := by
  refine Finset.card_eq_zero.mpr (Finset.filter_eq_empty_iff.mpr fun s hs => ?_)
  obtain ⟨b, hb, hsb⟩ := mem_fileSlots.mp (List.mem_toFinset.mp hs)
  rw [has_spine (hmap b hb) s hsb]
  decide

/-- **A write takes zones for the blocks of the file it leads to**, where all old ones are mapped. -/
theorem missing_fileSlots {n : Nat} (hE : start + size < maxSize) (hsize : isize < maxSize)
    (hmap : ∀ b, b ≤ isize / blockSize → v.Mapped n b) :
    missing (v.has n) (writeSlots ((start + size) / blockSize) fileRounds (start / blockSize) isize
      start size) = missing (v.has n) (fileSlots (start + size)) := by
  refine Nat.le_antisymm (missing_mono _ (writeSlots_sub (Nat.le_refl _) hE))
    (Finset.card_le_card fun s hs => ?_)
  obtain ⟨hmem, hno⟩ := Finset.mem_filter.mp hs
  obtain ⟨b, hb, hsb⟩ := mem_fileSlots.mp (List.mem_toFinset.mp hmem)
  refine Finset.mem_filter.mpr ⟨List.mem_toFinset.mpr ?_, hno⟩
  have hle : start / blockSize ≤ (start + size) / blockSize :=
    Nat.div_le_div_right (Nat.le_add_right _ _)
  rcases Nat.lt_or_ge (isize / blockSize) b with hnew | hold
  · exact writeSlots_spine hE hsize (.inl hle) (.inl ⟨rfl, rfl⟩) (range_arith hE).2.2 hnew hb s hsb
  · rw [has_spine (hmap b hold) s hsb] at hno
    cases hno

end Slots

theorem ssize_small {n : Nat} (h : n < maxSize) : ssize n = n := by
  have : maxSize = 268431360 := rfl
  unfold ssize
  rw [Int.bmod_eq_of_le (by omega) (by omega)]

/-- **`inode_write`** to a file whose blocks are all mapped. -/
theorem inodeWrite_loop (hv : v.Inv) (hp : v.inodes.get p = some inode)
    (data : Bytes) (hE : start + size < maxSize) (hsize : inode.size < maxSize)
    (hmap : ∀ b, b ≤ inode.size / blockSize → v.Mapped inode.index b)
    (hc : v.CleanWrite inode start size) :
    ∃ r w k, inodeWrite v p size start data = .ok (r, w) ∧ k ≤ size
      ∧ (k = size ∧ r = size ∧ Patched v w p inode start k data
          ∧ v.GapMapped inode.index inode.size (start + copySize start size)
          ∧ (freeZones v.sb v.disk).length = (freeZones w.sb w.disk).length + missing
              (v.has inode.index) (fileSlots (start + size))
        ∨ inode.size < start + size ∧ (k < size ∨ k = 0)
          ∧ (start ≤ inode.size → k < size ∧ Patched v w p inode start k data)
          ∧ (k = 0 → r < 0) ∧ (0 < k → r = k ∧ (start + k) % blockSize = 0)
          ∧ (v.GapMapped inode.index inode.size (start + copySize start size) →
              bitAt v.disk v.sb.zmapStart 0 = true → freeZones w.sb w.disk = []
              ∧ (freeZones v.sb v.disk).length < missing (v.has inode.index)
                  (fileSlots (start + size)))) := by
  obtain ⟨hfirst, hstop, hfuel⟩ := range_arith hE
  have h32 : maxSize < 2 ^ 32 := by decide
  have hle : start / blockSize ≤ (start + size) / blockSize :=
    Nat.div_le_div_right (Nat.le_add_right _ _)
  unfold Volume.CleanWrite at hc
  rw [hfirst, hstop] at hc
  obtain ⟨r, w, k, hrun, hk, hend⟩ := @writeLoop_patched p size
    ((start + size) / blockSize) data fileRounds v inode (start / blockSize) 0 start size hv hp hE
    (.inl hle) hsize hmap hc (Or.inl ⟨rfl, rfl⟩) hfuel
  simp only [Nat.zero_add, missing_fileSlots hE hsize hmap] at hend
  refine ⟨r, w, k, ?_, hk, ?_⟩
  · unfold inodeWrite
    simp only [hfirst, hstop]
    rw [if_neg (by omega)]
    exact hrun
  · rcases hend with ⟨h1, h2, h3, h4, h5⟩ | ⟨h1, h2, h3, ⟨e, he, h4⟩, hk0, h5⟩
    · exact Or.inl ⟨h1, by rw [h2, ssize_small (by omega)], h3, h4 hle, h5⟩
    · refine Or.inr ⟨h1, h2, h3, fun h => ?_, fun h => ⟨?_, hk0 h⟩, h5⟩
      · rw [h4, if_pos (by omega)]
        exact he
      · rw [h4, if_neg (by omega), ssize_small (by omega), show size - (size - k) = k by omega]

/-- The same inside the file or at its end, where there is no gap. -/
theorem inodeWrite_written (hv : v.Inv) (hp : v.inodes.get p = some inode)
    (data : Bytes) (hE : start + size < maxSize) (hstart : start ≤ inode.size)
    (hsize : inode.size < maxSize)
    (hmap : ∀ b, b ≤ inode.size / blockSize → v.Mapped inode.index b)
    (hc : v.CleanWrite inode start size) :
    ∃ r w k, inodeWrite v p size start data = .ok (r, w) ∧ k ≤ size
      ∧ Written v w p inode start k data
      ∧ (k = size ∧ r = size
          ∧ (freeZones v.sb v.disk).length = (freeZones w.sb w.disk).length + missing
              (v.has inode.index) (fileSlots (start + size))
        ∨ inode.size < start + size ∧ k < size ∧ (k = 0 → r < 0)
          ∧ (0 < k → r = k ∧ (start + k) % blockSize = 0)
          ∧ (bitAt v.disk v.sb.zmapStart 0 = true → freeZones w.sb w.disk = []
              ∧ (freeZones v.sb v.disk).length < missing (v.has inode.index)
                  (fileSlots (start + size)))) := by
  obtain ⟨r, w, k, hrun, hk, hend⟩ := inodeWrite_loop hv hp data hE hsize hmap hc
  have hgap := gapMapped_of_block (v := v) (n := inode.index) (Nat.le_trans (round_arith hE).2.2.1
    (Nat.mul_le_mul_right _ (Nat.succ_le_succ (Nat.div_le_div_right hstart))))
  refine ⟨r, w, k, hrun, hk, ?_⟩
  rcases hend with ⟨h1, h2, h3, _, h4⟩ | ⟨h1, _, h2, h3, h4, h5⟩
  · exact ⟨h3.written hstart, Or.inl ⟨h1, h2, h4⟩⟩
  · obtain ⟨h2, hpat⟩ := h2 hstart
    exact ⟨hpat.written hstart, Or.inr ⟨h1, h2, h3, h4, h5 hgap⟩⟩

/-! ## Reading -/

/-- The bytes a read returns: those of the file, 0 where no block is mapped. -/
def Volume.readAt (v : Volume) (n y : Nat) : UInt8 := (v.fileAt n y).getD 0

/-- The block that `inode_read` copies from. -/
theorem readBlock_eq (hv : v.Sited) (hidx : Allocated v.sb v.disk inode.index)
    (hy : y < maxOffset) :
    (if getBlock v.sb v.disk inode.index (y / blockSize) = 0 then fun _ => 0
      else blockRead v.disk (getBlock v.sb v.disk inode.index (y / blockSize))) (y % blockSize)
    = v.readAt inode.index y := by
  have hb := block_lt hy
  rw [getBlock_eq hv.layout hv.small hv.zones hidx rfl hb]
  unfold Volume.readAt Volume.fileAt byteAt
  split
  · rfl
  · rename_i h0
    have hlt : blockZone v.disk (readInode v.sb v.disk inode.index) (y / blockSize) < 2 ^ 16 :=
      ((hv.zones.isZone hidx (blockSlot hb).1 h0).bounds hv.layout hv.small).1
    rw [blockRead_zone hlt]
    rfl

/-- **The loop of `inode_read` copies the bytes of the file.** -/
theorem readLoop_eq (hv : v.Sited) (hidx : Allocated v.sb v.disk inode.index) (stop : Nat) :
    ∀ (fuel : Nat) {zone curData curStart curSize : Nat} {out : Bytes}, curStart + curSize < maxSize →
    OnRound stop zone curStart curSize → stop + 2 ≤ zone + fuel →
    readLoop v.sb v.disk inode.index stop fuel zone curData curStart curSize out
      = .ok fun x => if curData ≤ x ∧ x < curData + curSize
          then v.readAt inode.index (curStart + (x - curData)) else out x
  | 0, zone, curData, curStart, curSize, out, hE, hzone, hfuel => by
    have := hzone.round hE
    omega
  | fuel + 1, zone, curData, curStart, curSize, out, hE, hzone, hfuel => by
    rw [readLoop]
    rcases hzone.round hE with ⟨hs, hz⟩ | ⟨hle, hz, hround⟩
    · rw [if_pos (by omega)]
      refine congrArg Except.ok (funext fun x => ?_)
      rw [if_neg (by omega)]
    · obtain ⟨hcopy, hfit, _, hm1, hm2, hm3, _⟩ := round_arith hE
      rw [← hz] at hm3
      rw [if_neg (by omega), if_neg (by omega), hm1, hm2, hm3]
      generalize copySize curStart curSize = copy at hcopy hround hfit ⊢
      rw [readLoop_eq hv hidx stop fuel (by omega) hround (by omega)]
      refine congrArg Except.ok (funext fun x => ?_)
      by_cases hx : curData ≤ x ∧ x < curData + copy
      · -- a byte of this round
        rw [if_neg (show ¬ (curData + copy ≤ x ∧ x < curData + copy + (curSize - copy)) by omega),
          if_pos (show curData ≤ x ∧ x < curData + curSize by omega)]
        unfold Bytes.copy
        rw [if_pos hx]
        have hmod := Nat.div_add_mod curStart blockSize
        obtain ⟨hy, hyb, hym⟩ := block_arith (b := zone)
          (y := curStart + (x - curData)) (by omega) hfit (by rw [hz, Nat.mul_comm]; omega)
          (by rw [hz, Nat.mul_comm]; omega)
        rw [← readBlock_eq hv hidx hy, hyb, hym,
          show curStart + (x - curData) - zone * blockSize = curStart % blockSize + (x - curData) by
            rw [hz, Nat.mul_comm]; omega]
      · by_cases hx2 : curData + copy ≤ x ∧ x < curData + curSize
        · rw [if_pos (show curData + copy ≤ x ∧ x < curData + copy + (curSize - copy) by omega),
            if_pos (show curData ≤ x ∧ x < curData + curSize by omega),
            show curStart + copy + (x - (curData + copy)) = curStart + (x - curData) by omega]
        · rw [if_neg (show ¬ (curData + copy ≤ x ∧ x < curData + copy + (curSize - copy)) by omega),
            if_neg (show ¬ (curData ≤ x ∧ x < curData + curSize) by omega)]
          unfold Bytes.copy
          rw [if_neg hx]

/-- **`inode_read` returns the bytes of the file up to its size.** -/
theorem inodeRead_eq (hv : v.Sited) (hp : v.inodes.get p = some inode)
    (hidx : Allocated v.sb v.disk inode.index) (hsize : inode.size < maxSize) (hE : start + size < 2 ^ 32) (out : Bytes) :
    inodeRead v p size start out = .ok ((min size (inode.size - start) : Nat),
      fun x => if x < min size (inode.size - start) then v.readAt inode.index (start + x) else out x) := by
  unfold inodeRead
  rw [hp]
  simp only []
  split
  · rw [show min size (inode.size - start) = 0 by omega]
    simp
  · have hclip : (if inode.size < (start + size) % 2 ^ 32 then inode.size - start else size)
        = min size (inode.size - start) := by
      split <;> omega
    rw [hclip]
    generalize hm : min size (inode.size - start) = len
    obtain ⟨hfirst, hstop, hfuel⟩ := range_arith (show start + len < maxSize by omega)
    rw [hfirst, hstop, readLoop_eq hv hidx _ fileRounds (by omega) (Or.inl ⟨rfl, rfl⟩) hfuel,
      ssize_small (by omega)]
    refine congrArg Except.ok (Prod.ext rfl (funext fun x => ?_))
    simp

end Cyanurus
