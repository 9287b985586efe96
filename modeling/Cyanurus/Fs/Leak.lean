import Cyanurus.Fs.Minix

/-!
# Extensions that fail

An extension that finds no zone is given up. The zones it marked so far are recorded in the
copy of the inode in work, if their slot is one of `i_zone`, or in an indirect zone on disk.
The copy is dropped, so the first kind is lost: marked, and in no file. This happens whenever
an extension fails after it filled a slot of `i_zone`, be it for want of zones or because a
block to clear is not mapped on disk.

If no such slot is to be filled, every zone that got marked hangs under an indirect zone that
the inode on disk has, and is found through it.
-/

namespace Cyanurus

variable {v w : Volume} {p n size start : Nat} {inode : Inode} {data : Bytes} {r : Int} {d : Disk}
  {ino : Bytes} {slots rest : List (Nat × List Nat)} {ok : Bool}

/-- Zone `z` is in a slot of inode `n`. -/
def Volume.Reaches (v : Volume) (n z : Nat) : Prop :=
  ∃ k q, IsSlot k q ∧ zoneOf v.disk (readInode v.sb v.disk n) k q = z

/-- The zone map marks what it marked and the zones of inode `n`, and nothing else. -/
def Volume.Exact (v w : Volume) (n : Nat) : Prop :=
  ∀ z, v.sb.IsZone z → (zmapBit w.sb w.disk z = true ↔ zmapBit v.sb v.disk z = true ∨ w.Reaches n z)

/-- An empty entry of `i_zone` among `slots` gets a zone: those before it leave one. -/
def Volume.Strands (v : Volume) (n : Nat) (slots : List (Nat × List Nat)) : Prop :=
  ∃ pre s post, slots = pre ++ s :: post ∧ s ∉ pre ∧ s.2 = [] ∧ v.has n s = false
    ∧ missing (v.has n) pre < (freeZones v.sb v.disk).length

/-- What is to be shown: marks stay, and new ones are those of the inode. -/
theorem Volume.Exact.intro (hw : w.Inv) (hsb : w.sb = v.sb) (hn : Allocated w.sb w.disk n)
    (hmark : ∀ z, v.sb.IsZone z → zmapBit v.sb v.disk z = true → zmapBit w.sb w.disk z = true)
    (hnew : ∀ z, v.sb.IsZone z → zmapBit w.sb w.disk z = true →
      zmapBit v.sb v.disk z = true ∨ w.Reaches n z) : v.Exact w n := by
  refine fun z hz => ⟨hnew z hz, fun h => h.elim (hmark z hz) ?_⟩
  rintro ⟨k, q, hs, heq⟩
  have hpos := hw.layout.first_pos
  have hz0 : z ≠ 0 := by
    have := hz.1
    rw [hsb] at hpos
    omega
  have := (hw.zones.marked hn hs (by rw [heq]; exact hz0)).2
  rw [heq] at this
  exact this

theorem Volume.Exact.same (hw : w.Inv) (hsb : w.sb = v.sb) (hn : Allocated w.sb w.disk n)
    (h : ∀ z, v.sb.IsZone z → zmapBit w.sb w.disk z = zmapBit v.sb v.disk z) : v.Exact w n :=
  .intro hw hsb hn (fun z hz hm => (h z hz).trans hm) fun z hz hm => .inl ((h z hz).symm.trans hm)

/-! ## The copy that is dropped -/

/-- **An extension that is given up** loses zones exactly if it gave one to an entry of `i_zone`. -/
theorem Grown.exact_iff (hv : v.Inv) (hp : v.inodes.get p = some inode)
    (hb : bitAt v.disk v.sb.zmapStart 0 = true)
    (hg : Grown v.sb (Allocated v.sb v.disk) (readInode v.sb v.disk) inode.index v.disk v.disk
      (readInode v.sb v.disk inode.index) slots rest ok d ino)
    (hslots : ∀ s ∈ slots, IsSlot s.1 s.2) {d' : Disk}
    (hd : DataOnly d d' (readInode v.sb v.disk inode.index)) :
    v.Exact { v with disk := d' } inode.index ↔ ¬ v.Strands inode.index slots := by
  have hidx := (hv.live hp).1
  have hl := hv.layout
  have he := hg.ext
  have hside : ZoneSide v.sb v.disk d := he.rest
  have hdisk := he.zones_disk
  have hside' := hside.trans (hd.zonesOnly hdisk.sited hidx).zoneSide
  have hbit : ∀ z, v.sb.IsZone z → zmapBit v.sb d' z = zmapBit v.sb d z :=
    fun z hz => (hd.zonesOnly hdisk.sited hidx).zmapBit hl hz
  -- the zones of the inode on disk, after the extension
  have hzone : ∀ {k q}, IsSlot k q → zoneOf d' (readInode v.sb d' inode.index) k q
      = zoneOf d (readInode v.sb v.disk inode.index) k q := fun hs => by
    rw [hside'.readInode hl hidx.1, hd.zoneOf_eq hdisk.sited hidx hidx hs]
  constructor
  · rintro hex ⟨pre, s, post, heq, hpre, hroot, hno, hleft⟩
    have hmem : s ∈ slots := by
      rw [heq]
      simp
    have hs := hslots s hmem
    have h0 := hasZone_eq_false.mp hno
    have hne := (hg.takes.order hb heq hpre hs h0).mpr hleft
    obtain ⟨h1, h2, hfree⟩ := mem_freeZones.mp (hg.takes.fresh hmem hs h0 hne)
    have hz : v.sb.IsZone (zoneOf d ino s.1 s.2) := ⟨h1, by omega⟩
    have hmark := (hbit _ hz).trans (he.zones.marked_self hidx hs hne).2
    rcases (hex _ hz).mp hmark with hm | ⟨k, q, hq, hreach⟩
    · rw [hfree] at hm
      cases hm
    · -- a zone that is found on disk is in the same slot of the copy, but that slot is empty on disk
      have hreach := (hzone hq).symm.trans hreach
      have hcopy := (he.disk hq).resolve_left fun h => hne (hreach.symm.trans h)
      have hu := he.zones.unique (n := inode.index) (m := inode.index) hidx hq hidx hs
      rw [Function.update_self] at hu
      obtain ⟨_, rfl, rfl⟩ := hu (by rw [← hcopy, hreach]; exact hne) (hcopy.symm.trans hreach)
      refine hne (hreach.symm.trans ?_)
      rw [hroot] at h0 ⊢
      exact h0
  · intro hnot
    refine Volume.Exact.intro (hv.disk hside' (hd.zones hl hdisk hidx)) rfl ?_ (fun z hz hm => ?_)
      fun z hz hm => ?_
    · rw [hside'.allocated hl]
      exact hidx
    · exact (hbit z hz).trans (he.marks hz hm)
    · rcases hg.takes.held hz ((hbit z hz).symm.trans hm) with hm | ⟨hfree, s, hmem, heq⟩
      · exact .inl hm
      refine .inr ⟨s.1, s.2, hslots s hmem, (hzone (hslots s hmem)).trans (Eq.trans ?_ heq)⟩
      have hs := (hslots s hmem).suffix (List.nil_suffix ..)
      by_cases h0 : zoneOf v.disk (readInode v.sb v.disk inode.index) s.1 [] = 0
      · -- the entry of `i_zone` was filled on the way
        have hpos := hl.first_pos
        have hz0 := hz.1
        have hne : zoneOf d ino s.1 [] ≠ 0 := fun h => by
          have := (zoneOf_below_zero h (List.nil_suffix ..)).symm.trans heq
          omega
        have hroot : (s.1, []) ∈ slots := by_contra fun hout =>
          hne ((hg.takes.only (s := (s.1, [])) hs hout).trans h0)
        obtain ⟨pre, post, hsplit, hpre⟩ := List.eq_append_cons_of_mem hroot
        exact absurd ⟨pre, _, post, hsplit, hpre, rfl, hasZone_eq_false.mpr h0,
          (hg.takes.order hb hsplit hpre hs h0).mp hne⟩ hnot
      · exact zoneOf_root (hg.keep hs h0).symm s.2

/-- An extension that is carried out records all its zones. -/
theorem Grown.exact_done (hv : v.Inv) (hp : v.inodes.get p = some inode)
    (hg : Grown v.sb (Allocated v.sb v.disk) (readInode v.sb v.disk) inode.index v.disk v.disk
      (readInode v.sb v.disk inode.index) slots rest ok d ino)
    (hslots : ∀ s ∈ slots, IsSlot s.1 s.2) {d' : Disk} {ino' : Bytes}
    (hd : DataOnly d d' (Function.update (readInode v.sb v.disk) inode.index ino inode.index))
    (hi : ∀ k, k ≤ 8 → iZone ino' k = iZone ino k) :
    v.Exact (truncateEnd v p inode.index d' ino') inode.index := by
  have hidx := (hv.live hp).1
  have hl := hv.layout
  have hside : ZoneSide v.sb v.disk d := hg.ext.rest
  obtain ⟨hself, _, hmarks⟩ := hv.written hp hg hd hi
  obtain ⟨hinv, halloc, _⟩ := hv.finish hp
    (hside.trans (hd.zonesOnly hg.ext.zones.sited hidx).zoneSide) (hd.zones hl hg.ext.zones hidx) hi
  refine Volume.Exact.intro hinv rfl ?_ (fun z hz hm => ?_) fun z hz hm => ?_
  · show Allocated v.sb (truncateEnd v p inode.index d' ino').disk inode.index
    rw [halloc]
    exact hidx
  · exact (hmarks z hz).trans (hg.ext.marks hz hm)
  · rcases hg.takes.held hz ((hmarks z hz).symm.trans hm) with hm | ⟨_, s, hs, heq⟩
    · exact Or.inl hm
    · exact Or.inr ⟨s.1, s.2, hslots s hs, (hself (hslots s hs)).trans heq⟩

/-- **`inode_truncate` to a larger size**, whatever it returns. -/
theorem Truncated.exact (hv : v.Inv) (hp : v.inodes.get p = some inode)
    (hb : bitAt v.disk v.sb.zmapStart 0 = true) (hlt : inode.size < size) (h32 : size < 2 ^ 32)
    (ht : Truncated v p inode size rest r w) :
    (r < 0 → (v.Exact w inode.index ↔ ¬ v.Strands inode.index (extendSlots inode.size size)))
      ∧ (0 ≤ r → v.Exact w inode.index) := by
  have hslots := extendSlots_isSlot inode.size size
  cases ht with
  | same h => omega
  | shrunk h _ _ => omega
  | full _ hg =>
    exact ⟨fun _ => hg.exact_iff hv hp hb hslots (.refl _ _), fun h => absurd h (by decide)⟩
  | gap _ hg hcl =>
    exact ⟨fun _ => hg.exact_iff hv hp hb hslots (hv.cleared hp hg.ext hcl).1,
      fun h => absurd h (by decide)⟩
  | grown _ hg hcl =>
    obtain ⟨hi, _⟩ := grown_fields size inode.size h32
      ((hv.live hp).2.trans (iSize_congr hg.ext.head).symm)
    exact ⟨fun h => absurd h (by decide),
      fun _ => hg.exact_done hv hp hslots (hv.cleared hp hg.ext hcl).2 hi⟩

/-! ## Writes that fail -/

theorem ssize_nonneg {k : Nat} (h : k < 2 ^ 31) : 0 ≤ ssize k := by
  unfold ssize
  rw [Int.bmod_eq_of_le (by omega) (by omega)]
  exact Int.natCast_nonneg k

/-- Once bytes are written, or the loop is at its end, the result is no error. -/
theorem writeLoop_nonneg (stop : Nat) (hsize : size < 2 ^ 31) : ∀ (fuel : Nat) {v w : Volume}
    {zone curData curStart curSize : Nat} {r : Int}, curSize < size ∨ zone > stop →
    writeLoop p size stop data fuel v zone curData curStart curSize = .ok (r, w) → 0 ≤ r
  | 0, _, _, _, _, _, _, _, _, h => absurd h (by simp [writeLoop])
  | fuel + 1, v, w, zone, curData, curStart, curSize, r, hless, h => by
    cases hp : v.inodes.get p with
    | none =>
      rw [writeLoop, hp] at h
      split at h
      · obtain ⟨hr, _⟩ := Prod.mk.inj (Except.ok.inj h)
        rw [← hr]
        exact ssize_nonneg hsize
      · cases h
    | some inode =>
      have hcopy := copySize_le curStart curSize
      rcases writeLoop_cases hp h with ⟨_, hr, _⟩ | ⟨hle, t, x, _, hrest⟩
      · rw [hr]
        exact ssize_nonneg hsize
      · have hpart : 0 ≤ ssize (size - curSize) := ssize_nonneg (by omega)
        rcases hrest with ⟨_, _, hr⟩ | ⟨_, _, _, hr⟩ | ⟨_, _, _, hloop⟩
        · rw [hr, if_neg (by omega)]
          exact hpart
        · rw [hr, if_neg (by omega)]
          exact hpart
        · exact writeLoop_nonneg stop hsize fuel (Or.inl (by omega)) hloop

/-- A block that a growth has not mapped was not cleared, and is not on the way. -/
theorem Truncated.unmapped (hv : v.Inv) (hp : v.inodes.get p = some inode) (hlt : inode.size < size)
    (h32 : size < 2 ^ 32) (ht : Truncated v p inode size rest r w) (hr : 0 ≤ r) {b : Nat}
    (hb : b < 2 ^ 16) (h0 : getBlock w.sb w.disk inode.index b = 0) :
    (size - 1) / blockSize % 2 ^ 16 ≠ b
      ∧ (zoneSlot b, blockPath b) ∉ extendSlots inode.size size := by
  have hw := ht.inv hv hp
  cases ht with
  | same h => omega
  | shrunk h _ _ => omega
  | full _ _ => cases hr
  | gap _ _ _ => cases hr
  | @grown d d' ino _ hg hcl =>
    obtain ⟨hi, _⟩ := grown_fields size inode.size h32
      ((hv.live hp).2.trans (iSize_congr hg.ext.head).symm)
    generalize (if extendStart size < extendStart inode.size then ino else setSize ino size) = ino'
      at hi hw h0
    obtain ⟨hself, _, _⟩ := hv.written hp hg (hv.cleared hp hg.ext hcl).2 hi
    have hzero : zoneOf d ino (zoneSlot b) (blockPath b) = 0 := by
      rw [getBlock_eq hw.layout hw.small hw.zones.sited (hw.live (truncateEnd_get hp)).1 rfl hb] at h0
      exact (hself (blockSlot hb).1).symm.trans h0
    refine ⟨fun hy => ?_, fun hmem => hg.got rfl _ hmem hzero⟩
    have hfound := hg.ext.found hv (hv.live hp).1 h32 hcl (show inode.size ≤ size - 1 by omega) (by omega)
    rw [hy] at hfound
    exact hfound ((hg.ext.disk (blockSlot hb).1).elim id fun h => h.trans hzero)

theorem extendSlots_nil {t : Nat} (h : extendStart t ≤ extendStart size) : extendSlots size t = [] := by
  unfold extendSlots
  rw [Nat.sub_eq_zero_of_le h]
  rfl

/-- Without slots to fill no zone is marked. -/
theorem Truncated.marks (hv : v.Inv) (hp : v.inodes.get p = some inode) (hlt : inode.size < size)
    (h32 : size < 2 ^ 32) (hnil : extendSlots inode.size size = [])
    (ht : Truncated v p inode size rest r w) {z : Nat} (hz : v.sb.IsZone z) :
    zmapBit w.sb w.disk z = zmapBit v.sb v.disk z := by
  have hgrown : ∀ {ok d ino}, Grown v.sb (Allocated v.sb v.disk) (readInode v.sb v.disk) inode.index
      v.disk v.disk (readInode v.sb v.disk inode.index) (extendSlots inode.size size) rest ok d ino →
      zmapBit v.sb d z = zmapBit v.sb v.disk z := fun hg => by
    refine Bool.eq_iff_iff.mpr ⟨fun hm => ?_, hg.ext.marks hz⟩
    rcases hg.takes.held hz hm with hm | ⟨_, s, hs, _⟩
    · exact hm
    · rw [hnil] at hs
      cases hs
  cases ht with
  | same h => omega
  | shrunk h _ _ => omega
  | full _ hg => exact hgrown hg
  | gap _ hg hcl =>
    exact (((hv.cleared hp hg.ext hcl).1.zonesOnly hg.ext.zones_disk.sited (hv.live hp).1).zmapBit
      hv.layout hz).trans (hgrown hg)
  | grown _ hg hcl =>
    obtain ⟨hi, _⟩ := grown_fields size inode.size h32
      ((hv.live hp).2.trans (iSize_congr hg.ext.head).symm)
    exact ((hv.written hp hg (hv.cleared hp hg.ext hcl).2 hi).2.2 z hz).trans (hgrown hg)

/-- A write of no bytes to block 65535: its rounds go through all blocks, and fill no slot. -/
theorem writeLoop_zero (stop : Nat) (h32 : start < 2 ^ 32) (h0 : extendStart start = 0) :
    ∀ (fuel : Nat) {v w : Volume} {inode : Inode} {zone curData : Nat} {r : Int}, v.Inv →
    v.inodes.get p = some inode → zone < 2 ^ 16 →
    writeLoop p 0 stop data fuel v zone curData start 0 = .ok (r, w) →
    ∀ z, v.sb.IsZone z → zmapBit w.sb w.disk z = zmapBit v.sb v.disk z
  | 0, _, _, _, _, _, _, _, _, _, h, _, _ => absurd h (by simp [writeLoop])
  | fuel + 1, v, w, inode, zone, curData, r, hv, hp, hzone, h, z, hz => by
    rcases writeLoop_cases hp h with ⟨_, _, rfl⟩ | ⟨_, t, x, hgrow, hrest⟩
    · rfl
    · have hcopy : copySize start 0 = 0 := Nat.le_zero.mp (copySize_le start 0)
      have hnil : extendSlots inode.size start = [] := extendSlots_nil (by omega)
      rw [hcopy] at hgrow hrest
      simp only [Nat.add_zero, Nat.mod_eq_of_lt h32] at hgrow hrest
      obtain ⟨hx, ⟨i, hi, hidx⟩, hsb, hmark⟩ : x.Inv ∧ (∃ i, x.inodes.get p = some i
          ∧ i.index = inode.index) ∧ x.sb = v.sb
          ∧ zmapBit x.sb x.disk z = zmapBit v.sb v.disk z := by
        have hc : Clean v.disk (v.has inode.index) (roundSlots inode.size start ++ [])
            (freeZones v.sb v.disk) := by
          rw [roundSlots, hnil, ite_self]
          trivial
        rcases growTo_cases hv hp no_slots hc hgrow with ⟨_, rfl⟩ | ⟨hlt, ht⟩
        · exact ⟨hv, ⟨inode, hp, rfl⟩, rfl, rfl⟩
        · exact ⟨ht.inv hv hp, ht.get hp, ht.frame.1, ht.marks hv hp hlt h32 hnil hz⟩
      rcases hrest with ⟨_, rfl, _⟩ | ⟨_, _, rfl, _⟩ | ⟨_, hne, _, hloop⟩
      · exact hmark
      · exact hmark
      · rw [← hidx] at hne hloop
        obtain ⟨hu, hd⟩ := hx.writeBlock hi hzone hne ((blockRead x.disk
          (getBlock x.sb x.disk i.index zone)).copy (start % blockSize) data curData 0)
        rw [← hsb] at hz
        rw [← hmark, ← (hd.zonesOnly hx.zones.sited (hx.live hi).1).zmapBit hx.layout hz]
        exact writeLoop_zero stop h32 h0 fuel hu hi (Nat.mod_lt _ (by decide)) hloop z hz

/-- The first round ends in the block it begins in, or it is one of no bytes at the border. -/
theorem first_round (h32 : start < 2 ^ 32) (h31 : size < 2 ^ 31)
    (hpos : 0 < (start + copySize start size) % 2 ^ 32) :
    ((start + copySize start size) % 2 ^ 32 - 1) / blockSize = start / blockSize
    ∨ size = 0 ∧ (start + copySize start size) % 2 ^ 32 = start := by
  have hbs : blockSize = 4096 := rfl
  unfold copySize at *
  simp only [hbs] at hpos ⊢
  split at hpos
  · rename_i h
    rw [if_pos h]
    omega
  · rename_i h
    rw [if_neg h]
    omega

theorem not_strands_nil : ¬ v.Strands n [] := by
  rintro ⟨pre, s, post, hnil, _⟩
  simp at hnil

/-- A write of no bytes to block 65535 marks nothing. -/
theorem inodeWrite_zero (hv : v.Inv) (hp : v.inodes.get p = some inode) (h32 : start < 2 ^ 32)
    (h0 : extendStart start = 0) (hc : v.CleanWrite inode start 0)
    (hle : start / blockSize % 2 ^ 16 ≤ (start + 0) % 2 ^ 32 / blockSize % 2 ^ 16)
    (h : inodeWrite v p 0 start data = .ok (r, w)) : v.Exact w inode.index := by
  have he := inodeWrite_edits hv hp hc h
  refine .same (inodeWrite_inv hv hp hc h) he.sb ?_ ?_
  · rw [he.allocated]
    exact (hv.live hp).1
  · unfold inodeWrite at h
    simp only [] at h
    rw [if_neg (Nat.not_lt.mpr hle)] at h
    exact writeLoop_zero _ h32 h0 fileRounds hv hp (Nat.mod_lt _ (by decide)) h

/-- Once the first round is through, the result is no error. -/
theorem writeLoop_later {fuel curData curStart : Nat} (h31 : size < 2 ^ 31) (hr : r < 0)
    (hzero : ¬ (size = 0 ∧ extendStart start = 0)) :
    writeLoop p size ((start + size) % 2 ^ 32 / blockSize % 2 ^ 16) data fuel v
      ((start / blockSize % 2 ^ 16 + 1) % 2 ^ 16) curData curStart
      ((size + 2 ^ 32 - copySize start size) % 2 ^ 32) ≠ .ok (r, w) := by
  intro hloop
  have := writeLoop_nonneg _ h31 _ (by
    have hbs : blockSize = 4096 := rfl
    unfold extendStart at hzero
    unfold copySize
    simp only [hbs] at hzero ⊢
    split <;> omega) hloop
  omega

/-- A growth of the first round after which the block of `start` is not there has filled no slot. -/
theorem Truncated.no_slots (hv : v.Inv) (hp : v.inodes.get p = some inode) (h32 : start < 2 ^ 32)
    (h31 : size < 2 ^ 31) (hlt : inode.size < (start + copySize start size) % 2 ^ 32)
    (ht : Truncated v p inode ((start + copySize start size) % 2 ^ 32) rest r w) (hr : 0 ≤ r)
    (h0 : getBlock w.sb w.disk inode.index (start / blockSize % 2 ^ 16) = 0) :
    extendSlots inode.size ((start + copySize start size) % 2 ^ 32) = [] := by
  obtain ⟨hlast, hout⟩ := ht.unmapped hv hp hlt (Nat.mod_lt _ (by decide)) hr
    (Nat.mod_lt _ (by decide)) h0
  rcases first_round h32 h31 (by omega) with hend | ⟨hz, hnext⟩
  · rw [hend] at hlast
    exact absurd rfl hlast
  · rw [hnext] at hout ⊢
    refine extendSlots_nil (by_contra fun hgt => hout (List.mem_flatMap.mpr
      ⟨_, List.mem_range'_1.mpr ?_, mem_spine _⟩))
    unfold extendStart at *
    omega

/-! ## The zone map after an error -/

/-- **A failed extension leaves no zone behind** exactly if it has given none to an entry of
`i_zone`: after an `inode_truncate` to a larger size or an `inode_write` that returns an error, the
zones that got marked are then zones of the inode on disk. A write fails before it begins, or
in its first round. -/
theorem failed_extension_exact (hv : v.Inv) (hp : v.inodes.get p = some inode)
    (hb : bitAt v.disk v.sb.zmapStart 0 = true) :
    (∀ size r w, inode.size < size → size < 2 ^ 32 →
        Clean v.disk (v.has inode.index) (extendSlots inode.size size) (freeZones v.sb v.disk) →
        inodeTruncate v p size = .ok (r, w) → r < 0 →
        (v.Exact w inode.index ↔ ¬ v.Strands inode.index (extendSlots inode.size size)))
    ∧ ∀ start size data r w, start < 2 ^ 32 → size < 2 ^ 31 → v.CleanWrite inode start size →
        inodeWrite v p size start data = .ok (r, w) → r < 0 →
        (v.Exact w inode.index ↔
          (start + size) % 2 ^ 32 / blockSize % 2 ^ 16 < start / blockSize % 2 ^ 16
          ∨ ¬ v.Strands inode.index
              (roundSlots inode.size ((start + copySize start size) % 2 ^ 32))) := by
  have hsame : v.Exact v inode.index := .same hv rfl (hv.live hp).1 fun _ _ => rfl
  refine ⟨fun size r w hlt h32 hc h hr => ?_, fun start size data r w h32 h31 hc h hr => ?_⟩
  · exact ((inodeTruncate_cases hv hp no_slots (fun _ => by rw [List.append_nil]; exact hc) h).exact
      hv hp hb hlt h32).1 hr
  · rcases inodeWrite_cases hp h with ⟨hlt, rfl⟩ | ⟨hle, t, x, hgrow, hrest⟩
    · exact iff_of_true hsame (.inl hlt)
    rw [or_iff_right (by omega)]
    by_cases hzero : size = 0 ∧ extendStart start = 0
    · obtain ⟨rfl, h0⟩ := hzero
      have hcopy : copySize start 0 = 0 := Nat.le_zero.mp (copySize_le start 0)
      rw [hcopy, Nat.add_zero, Nat.mod_eq_of_lt h32, roundSlots, extendSlots_nil (by omega), ite_self]
      exact iff_of_true (inodeWrite_zero hv hp h32 h0 hc hle h) not_strands_nil
    obtain ⟨rest, hslots, hclean⟩ := hc.round hle
    rcases growTo_cases hv hp hslots hclean hgrow with ⟨hge, rfl⟩ | ⟨hlt, ht⟩
    · -- the first round is inside the file
      rw [roundSlots, if_neg (by omega)]
      refine iff_of_true ?_ not_strands_nil
      rcases hrest with ⟨_, rfl, _⟩ | ⟨_, _, rfl⟩ | ⟨_, _, _, _, _, hloop⟩
      · exact hsame
      · exact hsame
      · exact absurd hloop (writeLoop_later h31 hr hzero)
    · obtain ⟨hfail, hdone⟩ := ht.exact hv hp hb hlt (Nat.mod_lt _ (by decide))
      rw [roundSlots, if_pos hlt]
      rcases hrest with ⟨hneg, rfl, _⟩ | ⟨hpos, h0, rfl⟩ | ⟨_, _, _, _, _, hloop⟩
      · exact hfail hneg
      · rw [ht.no_slots hv hp h32 h31 hlt hpos h0]
        exact iff_of_true (hdone hpos) not_strands_nil
      · exact absurd hloop (writeLoop_later h31 hr hzero)

/-- The new file with the two blocks that there are zones for. -/
def fullFile : Volume :=
  match inodeWrite oneFile.vol 0 12288 0 fun _ => 7 with
  | .ok (_, v) => v
  | .error _ => oneFile.vol

theorem oneFile_inv : oneFile.vol.Inv :=
  have hv := emptyVolume_fresh.mounted.inv (by decide)
  (inodeCreate_cases hv 0o100644).inv hv

theorem fullFile_inv : fullFile.Inv := by
  unfold fullFile
  split
  · rename_i h
    refine inodeWrite_inv oneFile_inv oneFile_get ?_ h
    exact clean_of_direct fun s hs => writeSlots_direct (by decide) s hs
  · exact oneFile_inv

/-- There is no zone for a third block. -/
theorem failed_extension_exact_full :
    ∃ w, inodeWrite fullFile 0 4096 8192 (fun _ => 7) = .ok (enospc, w) ∧ fullFile.Exact w 1 := by
  have hget : fullFile.inodes.get 0 = some ⟨1, 0o100644, 0, 8192⟩ := by decide
  have hret : (inodeWrite fullFile 0 4096 8192 fun _ => 7).toOption.map Prod.fst = some enospc := by
    decide
  have hnone : freeZones fullFile.sb fullFile.disk = [] := by decide
  cases h : inodeWrite fullFile 0 4096 8192 fun _ => 7 with
  | error e =>
    rw [h] at hret
    exact absurd hret (by simp [Except.toOption])
  | ok q =>
    obtain ⟨r, w⟩ := q
    rw [h] at hret
    have hr : r = enospc := Option.some.inj hret
    subst hr
    refine ⟨w, rfl, ((failed_extension_exact fullFile_inv hget (by decide)).2 8192 4096 _ _ w (by decide)
      (by decide) (clean_of_direct (writeSlots_direct (by decide))) h (by decide)).mpr (.inr ?_)⟩
    rintro ⟨_, _, _, _, _, _, _, hleft⟩
    rw [hnone] at hleft
    exact Nat.not_lt_zero _ hleft

/-- An empty file is to grow by two blocks. Their zones are marked, and when the second block
turns out not to be mapped on disk they are left so. -/
theorem failed_extension_leaks : ¬ ∀ (v : Volume) (p size : Nat) (inode : Inode) (r : Int) (w : Volume),
    v.Inv → v.inodes.get p = some inode → inode.size < size → size < 2 ^ 32 →
    inodeTruncate v p size = .ok (r, w) → r < 0 → v.Exact w inode.index := by
  intro hall
  have hprobe : (inodeTruncate oneFile.vol 0 8192).toOption.map (fun q => (q.1,
      zmapBit oneFile.vol.sb oneFile.vol.disk 6, zmapBit q.2.sb q.2.disk 6,
      (List.range 9).all fun k => iZone (readInode q.2.sb q.2.disk 1) k == if k = 0 then 5 else 0))
      = some (enospc, false, true, true) := by
    decide
  cases h : inodeTruncate oneFile.vol 0 8192 with
  | error e =>
    rw [h] at hprobe
    exact absurd hprobe (by simp [Except.toOption])
  | ok q =>
    obtain ⟨r, w⟩ := q
    rw [h] at hprobe
    obtain ⟨hr, hbefore, hafter, hzones⟩ : r = enospc ∧ zmapBit oneFile.vol.sb oneFile.vol.disk 6 = false
        ∧ zmapBit w.sb w.disk 6 = true
        ∧ ((List.range 9).all fun k => iZone (readInode w.sb w.disk 1) k == if k = 0 then 5 else 0)
          = true := by
      simpa only [Except.toOption, Option.map_some, Option.some.injEq, Prod.mk.injEq] using hprobe
    subst hr
    have hex := hall oneFile.vol 0 8192 ⟨1, 0o100644, 0, 0⟩ enospc w oneFile_inv oneFile_get (by decide)
      (by decide) h (by decide)
    have h6 : oneFile.vol.sb.IsZone 6 := ⟨by decide, by decide⟩
    rcases (hex 6 h6).mp hafter with hm | ⟨k, q, hs, heq⟩
    · cases hm
    · -- the inode on disk has its first block and nothing else
      have hroot := eq_of_beq (List.all_eq_true.mp hzones k (List.mem_range.mpr (by
        have := hs.1
        omega)))
      by_cases hk : k = 0
      · subst hk
        have hq : q = [] := List.length_eq_zero_iff.mp (Nat.le_zero.mp hs.2.1)
        subst hq
        have heq : iZone (readInode w.sb w.disk 1) 0 = 6 := heq
        rw [hroot] at heq
        cases heq
      · rw [if_neg hk] at hroot
        have h0 := zoneOf_empty (d := w.disk) hroot q
        exact absurd (h0.symm.trans heq) (by decide)

end Cyanurus
