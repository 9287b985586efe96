import Cyanurus.Fs.Append
import Cyanurus.Fs.Frame

/-!
# Writing behind the end of a file

A file made by the kernel always has the block behind its last byte mapped: `inode_create`
maps block 0 of an empty file, and `extend_zone` adds the blocks from `size / 4096 + 1` on.
`Volume.Laid` is this layout, and every operation keeps it.

Two kinds of writes depend on it. A write that starts behind the end of the file has to
clear the bytes in between. `inode_truncate` looks for the blocks to clear through the inode
on disk, while the new blocks are still in the copy in work, so it gives up with `-ENOSPC`
unless each of them hangs under an entry of `i_zone` that is on disk already. And a file laid
out as the image tools do it, with the blocks of its bytes and no others, has no block to
start with when its size is a multiple of the block size.

Under the conditions that these two observations leave, a write does what it should exactly
if there are zones for it.
-/

namespace Cyanurus

open Lts

variable {v w u : Volume} {p n b : Nat} {inode : Inode} {data : Bytes}

/-! ## The zones a write needs -/

variable {t isize start size : Nat} {inode' : Inode} {r : Int}

/-- There are free zones for the slots that are still empty. -/
def Volume.Enough (v : Volume) (n t : Nat) : Prop :=
  missing (v.has n) (fileSlots t) ≤ (freeZones v.sb v.disk).length

instance (v : Volume) (n t : Nat) : Decidable (v.Enough n t) := inferInstanceAs (Decidable (_ ≤ _))

/-- All blocks of inode `n` up to the one behind its last byte are mapped. -/
structure Volume.Laid (v : Volume) (n size : Nat) : Prop where
  small : size < maxSize
  mapped : ∀ b, b ≤ size / blockSize → v.Mapped n b

/-- **`inode_write` writes all its bytes** exactly if the blocks of the gap are found and there are
zones for the others. -/
theorem inodeWrite_whole (hv : v.Inv) (hp : v.inodes.get p = some inode)
    (data : Bytes) (hE : start + size < maxSize) (hl : v.Laid inode.index inode.size)
    (hb : bitAt v.disk v.sb.zmapStart 0 = true) (hc : v.CleanWrite inode start size) :
    (v.GapMapped inode.index inode.size (start + copySize start size) →
      v.Enough inode.index (start + size) →
      ∃ w, inodeWrite v p size start data = .ok (size, w) ∧ Patched v w p inode start size data)
    ∧ ∀ {w}, inodeWrite v p size start data = .ok (size, w) →
      v.GapMapped inode.index inode.size (start + copySize start size)
        ∧ v.Enough inode.index (start + size) := by
  obtain ⟨r, w, k, hrun, _, hend⟩ := inodeWrite_loop hv hp data hE hl.small hl.mapped hc
  refine ⟨fun hgap hen => ?_, fun {w'} h => ?_⟩
  · rcases hend with ⟨rfl, rfl, hpat, _⟩ | ⟨_, _, _, _, _, hfull⟩
    · exact ⟨w, hrun, hpat⟩
    · exact absurd hen (Nat.not_le.mpr (hfull hgap hb).2)
  · obtain ⟨rfl, rfl⟩ := Prod.mk.inj (Except.ok.inj (hrun.symm.trans h))
    rcases hend with ⟨_, _, _, hgap, hcost⟩ | ⟨_, hk, _, h0, hpos, _⟩
    · exact ⟨hgap, Nat.le.intro ((Nat.add_comm ..).trans hcost.symm)⟩
    · -- a write that stops early returns less
      rcases Nat.eq_zero_or_pos k with hz | hz
      · have := h0 hz
        omega
      · have := (hpos hz).1
        omega

/-! ## Reading it back -/

/-- The bytes of a file of `isize` bytes after `data` was written at `start`. -/
def overlay (old : Nat → UInt8) (isize start size : Nat) (data : Bytes) (y : Nat) : UInt8 :=
  if start ≤ y ∧ y < start + size then data (y - start) else if isize ≤ y then 0 else old y

/-- The file has this size, and `inode_read` returns these bytes. -/
structure Volume.Holds (w : Volume) (p : Nat) (inode : Inode) (size : Nat) (bytes : Nat → UInt8) :
    Prop where
  get : w.inodes.get p = some { inode with size := size }
  read : ∀ start len out, start + len < 2 ^ 32 →
    inodeRead w p len start out = .ok ((min len (size - start) : Nat),
      fun x => if x < min len (size - start) then bytes (start + x) else out x)

theorem Volume.Laid.block_lt (hl : v.Laid n size) (hb : b ≤ size / blockSize) :
    b < 2 ^ 16 :=
  Nat.lt_of_le_of_lt hb (Cyanurus.block_lt (by
    have := hl.small
    have : maxSize + blockSize = maxOffset := rfl
    omega))

/-- A byte of the file is there. -/
theorem Volume.Laid.byte (hl : v.Laid inode.index inode.size) {y : Nat} (hy : y < inode.size) :
    v.fileAt inode.index y = some (v.readAt inode.index y) := by
  have h0 := hl.mapped (y / blockSize) (Nat.div_le_div_right (Nat.le_of_lt hy))
  unfold Volume.readAt Volume.fileAt byteAt
  rw [if_neg h0]
  rfl

/-- **What was written is read back.** -/
theorem Patched.holds (hv : v.Inv) (hp : v.inodes.get p = some inode) (hl : v.Laid inode.index inode.size)
    (hE : start + size < maxSize) (h : Patched v w p inode start size data) :
    w.Holds p inode (max inode.size (start + size))
      (overlay (v.readAt inode.index) inode.size start size data) := by
  have hsmall := hl.small
  refine ⟨h.get, fun a len out hlen => ?_⟩
  rw [inodeRead_eq h.keeps.inv.sited h.get (h.keeps.inv.live h.get).1 (show max _ _ < _ by omega) hlen]
  refine congrArg Except.ok (Prod.ext rfl (funext fun x => ?_))
  simp only []
  split
  · have hy : a + x < max inode.size (start + size) := by omega
    have hmax : maxSize + blockSize = maxOffset := rfl
    generalize a + x = y at hy ⊢
    unfold overlay
    by_cases hin : start ≤ y ∧ y < start + size
    · have := h.data (y - start) (by omega)
      rw [show start + (y - start) = y by omega] at this
      unfold Volume.readAt
      rw [if_pos hin, this]
      rfl
    · rw [if_neg hin]
      by_cases hgap : inode.size ≤ y
      · unfold Volume.readAt
        rw [if_pos hgap, h.zero y hgap (by omega)]
        rfl
      · have := h.keeps.bytes (y := y) (hv.live hp).1 (by omega) (fun _ => by omega)
          (hl.byte (by omega))
        rw [if_neg hgap]
        show (w.fileAt inode.index y).getD 0 = _
        rw [this]
        rfl
  · rfl

/-! ## The layout is kept -/

/-- A change of data keeps blocks mapped. -/
theorem DataOnly.mapped {d : Disk} (hv : v.Inv) (hn : Allocated v.sb v.disk n)
    (hd : DataOnly v.disk d (readInode v.sb v.disk n)) (hb : b < 2 ^ 16) (h0 : v.Mapped n b) :
    Volume.Mapped { v with disk := d } n b := by
  show zoneOf d (readInode v.sb d n) _ _ ≠ 0
  rw [(hd.zonesOnly hv.zones.sited hn).readInode hv.layout hn.1,
    hd.zoneOf_eq hv.zones.sited hn hn (blockSlot hb).1]
  exact h0

/-- **`inode_truncate` keeps the layout**, also when it gives up. -/
theorem Truncated.laid {rest : List (Nat × List Nat)} (hv : v.Inv)
    (hp : v.inodes.get p = some inode) (hl : v.Laid inode.index inode.size) (hsize : size < maxSize)
    (ht : Truncated v p inode size rest r w) (hp' : w.inodes.get p = some inode') :
    w.Laid inode'.index inode'.size := by
  have hidx := (hv.live hp).1
  have h32 : maxSize < 2 ^ 32 := by decide
  cases ht with
  | same _ =>
    cases hp.symm.trans hp'
    exact hl
  | full _ hg =>
    cases hp.symm.trans hp'
    have hk := hg.keeps_disk hv hp
    exact ⟨hl.small, fun b hb => hk.mapped hidx (hl.block_lt hb) (hl.mapped b hb)⟩
  | @gap d d' ino _ hg hcl =>
    cases hp.symm.trans hp'
    have hk := hg.keeps_disk hv hp
    have hside : ZoneSide v.sb v.disk _ := hg.ext.rest
    have hd := (hv.cleared hp hg.ext hcl).1
    rw [← hside.readInode hv.layout hidx.1] at hd
    have hidx' : Allocated v.sb d inode.index := by
      rw [hside.allocated hv.layout]
      exact hidx
    exact ⟨hl.small, fun b hb => DataOnly.mapped (v := { v with disk := d }) hk.inv hidx' hd
      (hl.block_lt hb) (hk.mapped hidx (hl.block_lt hb) (hl.mapped b hb))⟩
  | @grown d d' ino hlt hg hcl =>
    rw [truncateEnd_get hp] at hp'
    obtain ⟨hi, hsz⟩ := grown_fields size inode.size (Nat.lt_trans hsize h32)
      ((hv.live hp).2.trans (iSize_congr hg.ext.head).symm)
    obtain ⟨hslots, _, _⟩ := hv.written hp hg (hv.cleared hp hg.ext hcl).2 hi
    have hnow : grownSize inode.size size = size := by
      have := roundSize_eq hl.small hsize
      unfold roundSize at this
      rw [if_pos hlt, Nat.max_eq_right (Nat.le_of_lt hlt)] at this
      exact this
    cases hp'
    rw [hsz, hnow]
    refine ⟨hsize, fun b (hb : b ≤ size / blockSize) => ?_⟩
    have hb16 : b < 2 ^ 16 := by
      have : size / blockSize < 65535 := Nat.div_lt_of_lt_mul (by rw [Nat.mul_comm]; exact hsize)
      omega
    have hslot := (blockSlot hb16).1
    refine fun h => ?_
    have h := (hslots hslot).symm.trans h
    by_cases hold : b ≤ inode.size / blockSize
    · -- an old block keeps its zone
      exact hl.mapped b hold ((hg.keep hslot (hl.mapped b hold)).symm.trans h)
    · refine hg.got rfl (zoneSlot b, blockPath b) ?_ h
      refine List.mem_flatMap.mpr ⟨b, ?_, mem_spine b⟩
      rw [extendStart_eq hsize, extendStart_eq hl.small]
      exact List.mem_range'_1.mpr ⟨by omega, by omega⟩
  | @shrunk d ino hlt hs hlow =>
    rw [truncateEnd_get hp] at hp'
    cases hp'
    obtain ⟨_, _, hslots⟩ := hv.finish hp hs.rest hs.zones fun k _ => iZone_setSize ino k size
    rw [iSize_setSize, Nat.mod_eq_of_lt (Nat.lt_trans hsize h32)]
    refine ⟨hsize, fun b (hb : b ≤ size / blockSize) => ?_⟩
    have hdiv : size / blockSize ≤ inode.size / blockSize :=
      Nat.div_le_div_right (Nat.le_of_lt hlt)
    have hold : b ≤ inode.size / blockSize := by omega
    have hb16 := hl.block_lt hold
    have hmod : size / blockSize % 2 ^ 16 = size / blockSize :=
      Nat.mod_eq_of_lt (by have := hl.block_lt (Nat.le_refl _); omega)
    refine fun h => hl.mapped b hold ?_
    have h := (hslots hidx (blockSlot hb16).1).symm.trans h
    rw [Function.update_self] at h
    exact (hlow b (by omega)).symm.trans h

/-- **`inode_write` keeps the layout**, wherever it stops. -/
theorem inodeWrite_laid (hv : v.Inv) (hp : v.inodes.get p = some inode)
    (hl : v.Laid inode.index inode.size)
    (hE : start + size < maxSize) (hc : v.CleanWrite inode start size)
    (h : inodeWrite v p size start data = .ok (r, w))
    (hp' : w.inodes.get p = some inode') : w.Laid inode'.index inode'.size := by
  let At (v : Volume) : Prop := ∀ i, v.inodes.get p = some i → v.Laid i.index i.size
  have hat : At v → At w := by
    refine (inodeWrite_rel (R := fun v w => At v → At w) hv hp ⟨fun _ h => h,
      fun h h' ha => h' (h ha), fun {v w i rest next t} hv hp _ hlim ht ha j hj => ?_,
      fun {v i b} buf hv hp _ hb h0 ha j hj => ?_⟩ hc h).2
    · exact ht.laid hv hp (ha i hp) (by omega) hj
    · cases hp.symm.trans hj
      obtain ⟨_, hd⟩ := hv.writeBlock hp hb h0 buf
      exact ⟨(ha i hp).small, fun c hc => hd.mapped hv (hv.live hp).1 ((ha i hp).block_lt hc)
        ((ha i hp).mapped c hc)⟩
  exact hat (fun i hi => by cases hp.symm.trans hi; exact hl) inode' hp'

/-- The files that an operation on inode `n` leaves alone. -/
theorem Volume.Others.laid {m : Nat} (h : v.Others w n) (hne : m ≠ n)
    (hm : Allocated v.sb v.disk m) (hl : v.Laid m (v.sizeOf m)) : w.Laid m (w.sizeOf m) := by
  have hf := h.sameFile hne hm
  unfold Volume.sizeOf at *
  rw [hf.size]
  exact ⟨hl.small, fun b hb => (hf.mapped (hl.block_lt hb)).mpr (hl.mapped b hb)⟩

/-! ## Runs -/

/-- A volume with the numbers of the inodes that were made since it was mounted. -/
structure Made where
  vol : Volume
  made : List Nat

/-- The number of the inode that `inode_create` returns, if it does. -/
def newIndex (v : Volume) : Option Nat → List Nat
  | some q => ((v.inodes.get q).map Inode.index).toList
  | none => []

inductive MadeStep : Made → ZoneAct → Made → Prop
  | create {s : Made} {mode : Nat} : MadeStep s (.create mode) ⟨(inodeCreate s.vol mode).2,
      newIndex (inodeCreate s.vol mode).2 (inodeCreate s.vol mode).1 ++ s.made⟩
  | other {s : Made} {a : ZoneAct} {v : Volume} : (∀ mode, a ≠ .create mode) → ZoneStep s.vol a v →
      MadeStep s a ⟨v, s.made⟩

/-- The operation asks for less than 65535 blocks. -/
def ZoneAct.Small : ZoneAct → Prop
  | .write _ size start _ => start + size < maxSize
  | .truncate _ size => size < maxSize
  | _ => True

/-- The invariant of a run. -/
structure Made.Inv (s : Made) : Prop where
  vol : s.vol.Inv
  laid : ∀ {n}, n ∈ s.made → Allocated s.vol.sb s.vol.disk n → s.vol.Laid n (s.vol.sizeOf n)

variable {s s' : Made} {a : ZoneAct}

theorem Made.Inv.create (hs : s.Inv) (mode : Nat) : Made.Inv ⟨(inodeCreate s.vol mode).2,
    newIndex (inodeCreate s.vol mode).2 (inodeCreate s.vol mode).1 ++ s.made⟩ := by
  have hc := inodeCreate_cases hs.vol mode
  refine ⟨hc.inv hs.vol, fun {n} hn ha => ?_⟩
  generalize inodeCreate s.vol mode = c at hc hn ha ⊢
  obtain ⟨r, w⟩ := c
  cases r with
  | none =>
    have he := hc.edits hs.vol (n + 1)
    exact he.toOthers.laid (by omega) ((he.alloc (by omega)).mp ha)
      (hs.laid hn ((he.alloc (by omega)).mp ha))
  | some q =>
    obtain ⟨m, hun, ho, _, _, hsize, hmap, _, hget, _⟩ := hc.others hs.vol
    have hmem : n = m ∨ n ∈ s.made := by
      have hn : n ∈ ((w.inodes.get q).map Inode.index).toList ++ s.made := hn
      rw [hget] at hn
      exact List.mem_cons.mp hn
    by_cases hnm : n = m
    · subst hnm
      unfold Volume.sizeOf
      rw [hsize]
      refine ⟨by decide, fun b hb => ?_⟩
      rw [show b = 0 by simpa using hb]
      exact hmap
    · exact ho.laid hnm ((ho.alloc hnm).mp ha)
        (hs.laid (hmem.resolve_left hnm) ((ho.alloc hnm).mp ha))

theorem inodeGet_disk (v : Volume) (n : Nat) :
    (inodeGet v n).2.sb = v.sb ∧ (inodeGet v n).2.disk = v.disk := by
  unfold inodeGet getInode
  cases v.list.find? (hasIndex v n) <;> exact ⟨rfl, rfl⟩

/-- An operation on inode `n` that keeps its layout keeps the layout of all. -/
theorem Made.Inv.others (hs : s.Inv) (hw : w.Inv) (ho : s.vol.Others w n)
    (hself : n ∈ s.made → Allocated w.sb w.disk n → w.Laid n (w.sizeOf n)) :
    Made.Inv ⟨w, s.made⟩ := by
  refine ⟨hw, fun {m} hm ha => ?_⟩
  by_cases hmn : m = n
  · subst hmn
    exact hself hm ha
  · have ha' := (ho.alloc hmn).mp ha
    exact ho.laid hmn ha' (hs.laid hm ha')

/-- **Every operation keeps the layout of the files made by the kernel.** -/
theorem madeStep_inv (hs : s.Inv) (hc : a.Clean s.vol) (hsmall : a.Small) (h : MadeStep s a s') :
    s'.Inv := by
  cases h with
  | create => exact hs.create _
  | other hne h =>
    have hw := zoneStep_inv hs.vol hc h
    have hlaid : ∀ {p inode}, s.vol.inodes.get p = some inode → inode.index ∈ s.made →
        s.vol.Laid inode.index inode.size := by
      intro p inode hp hn
      rw [(hs.vol.live hp).2]
      exact hs.laid hn (hs.vol.live hp).1
    cases h with
    | @get n hn =>
      obtain ⟨hsb, hd⟩ := inodeGet_disk s.vol n
      refine ⟨hw, fun {m} hm ha => ?_⟩
      have hl := hs.laid hm (by rw [← hsb, ← hd]; exact ha)
      unfold Volume.sizeOf at *
      refine ⟨?_, fun b hb => ?_⟩
      · simp only [hsb, hd]
        exact hl.small
      · simp only [hsb, hd] at hb
        unfold Volume.Mapped
        simp only [hsb, hd]
        exact hl.mapped b hb
    | create => exact absurd rfl (hne _)
    | write hp _ _ h =>
      obtain ⟨inode, hp⟩ := Option.isSome_iff_exists.mp hp
      have he := inodeWrite_edits hs.vol hp (hc inode hp) h
      refine hs.others hw he.toOthers fun hn _ => ?_
      obtain ⟨inode', hp', hidx, _⟩ := he.objects.forth hp
      have := inodeWrite_laid hs.vol hp (hlaid hp hn) hsmall (hc inode hp) h hp'
      rw [(hw.live hp').2, hidx] at this
      exact this
    | truncate hp _ h =>
      obtain ⟨inode, hp⟩ := Option.isSome_iff_exists.mp hp
      have ht := inodeTruncate_cases hs.vol hp no_slots
        (fun hlt => by rw [List.append_nil]; exact hc inode hp hlt) h
      refine hs.others hw (ht.edits hs.vol hp).toOthers fun hn _ => ?_
      obtain ⟨inode', hp', hidx⟩ := ht.get hp
      have := ht.laid hs.vol hp (hlaid hp hn) hsmall hp'
      rw [(hw.live hp').2, hidx] at this
      exact this
    | destroy hp h =>
      obtain ⟨inode, hp⟩ := Option.isSome_iff_exists.mp hp
      obtain ⟨ho, hgone, _, _⟩ := inodeDestroy_others hs.vol hp h
      exact hs.others hw ho fun _ ha => absurd ha hgone

/-- `inode_write` returns `size`, and the file then has its old bytes, zeros behind its old
end, and `data` at `start`. -/
def Volume.Writes (v : Volume) (p : Nat) (inode : Inode) (start size : Nat) (data : Bytes) : Prop :=
  ∃ w, inodeWrite v p size start data = .ok (size, w)
    ∧ w.Holds p inode (max inode.size (start + size))
        (overlay (v.readAt inode.index) inode.size start size data)

/-- **A write to a file made by the kernel is carried out** exactly if the blocks of the gap before
`start` hang under entries of `i_zone` that are on disk, and there are zones for the blocks that
are missing. -/
theorem write_past_end {as : List ZoneAct} (hm : v.Mounted) (hz : v.sb.sZones ≤ 2 ^ 16)
    (hr : Run (Guarded (fun s a => a.Clean s.vol ∧ a.Small) MadeStep) ⟨v, []⟩ as s)
    (hp : s.vol.inodes.get p = some inode) (hmade : inode.index ∈ s.made) {start size : Nat}
    (data : Bytes) (hE : start + size < maxSize) (hb : bitAt s.vol.disk s.vol.sb.zmapStart 0 = true)
    (hc : s.vol.CleanWrite inode start size) :
    s.vol.Writes p inode start size data
      ↔ s.vol.GapMapped inode.index inode.size (start + copySize start size)
        ∧ s.vol.Enough inode.index (start + size) := by
  have hs : s.Inv := Run.invariant hr ⟨hm.inv hz, fun h => absurd h (by simp)⟩
    fun _ _ _ hi h => madeStep_inv hi h.1.1 h.1.2 h.2
  have hl : s.vol.Laid inode.index inode.size := by
    rw [(hs.vol.live hp).2]
    exact hs.laid hmade (hs.vol.live hp).1
  obtain ⟨hgo, hback⟩ := inodeWrite_whole hs.vol hp data hE hl hb hc
  constructor
  · rintro ⟨w, hrun, _⟩
    exact hback hrun
  · rintro ⟨hgap, hen⟩
    obtain ⟨w, hrun, hpat⟩ := hgo hgap hen
    exact ⟨w, hrun, hpat.holds hs.vol hp hl hE⟩

/-- A file is made on the empty volume. -/
def oneFile : Made := ⟨(inodeCreate emptyVolume 0o100644).2, [1]⟩

theorem oneFile_step : MadeStep ⟨emptyVolume, []⟩ (.create 0o100644) oneFile := by
  exact .create

theorem oneFile_get : oneFile.vol.inodes.get 0 = some ⟨1, 0o100644, 0, 0⟩ := by decide

/-- A byte is written to the new file behind a hole of four bytes. -/
theorem write_past_end_four :
    oneFile.vol.Writes 0 ⟨1, 0o100644, 0, 0⟩ 4 1 fun _ => 7 := by
  have hrun : Run (Guarded (fun s a => a.Clean s.vol ∧ a.Small) MadeStep) ⟨emptyVolume, []⟩
      [.create 0o100644] oneFile := Run.nil.snoc ⟨⟨trivial, trivial⟩, oneFile_step⟩
  exact (write_past_end emptyVolume_fresh.mounted (by decide) hrun oneFile_get (by decide) _ (by decide)
    (by decide) (clean_of_direct (writeSlots_direct (by decide)))).mpr
    ⟨gapMapped_of_block (by decide), by decide⟩

/-- The zones that are not marked. -/
def Volume.unmarked (v : Volume) : List Nat :=
  (List.range' v.sb.sFirstdatazone (v.sb.sZones - v.sb.sFirstdatazone)).filter
    fun z => !zmapBit v.sb v.disk z

/-- Without the condition on `start` it need not be: the first block of a new file is
mapped, and a write that starts in the second one fails, with two zones left. -/
theorem write_past_end_gap : ¬ ∀ (v : Volume) (as : List ZoneAct) (s : Made), v.Mounted →
    v.sb.sZones ≤ 2 ^ 16 → bitAt v.disk v.sb.zmapStart 0 = true → Run MadeStep ⟨v, []⟩ as s →
    ∀ (p : Nat) (inode : Inode) (start size : Nat) (data : Bytes), s.vol.inodes.get p = some inode →
    inode.index ∈ s.made → start + size < maxSize →
    missing (s.vol.has inode.index) (fileSlots (start + size)) ≤ s.vol.unmarked.length →
    s.vol.Writes p inode start size data := by
  intro h
  obtain ⟨w, hrun, _⟩ := h emptyVolume _ oneFile emptyVolume_fresh.mounted (by decide)
    (by decide) (Run.nil.snoc oneFile_step) 0 ⟨1, 0o100644, 0, 0⟩ 4096 1 (fun _ => 7) oneFile_get
    (by decide) (by decide) (by decide)
  have hret : (inodeWrite oneFile.vol 0 1 4096 fun _ => 7).toOption.map Prod.fst = some enospc := by
    decide
  rw [hrun] at hret
  cases hret

end Cyanurus
