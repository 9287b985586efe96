import Mathlib.Order.Interval.Finset.Nat
import Cyanurus.Fs.Holes

/-!
# Files laid out by the image tools

In a file as the image tools write it, block `b` is mapped exactly if the file has a byte
in it. The kernel works with one block more: where the size is a multiple of the block
size, zero included, the next byte belongs to a block that is not mapped, `extend_zone`
starts with the block after it, and an append fails. For every other size the layout is the
kernel's own, and an append for which there are zones is carried out.

That there are zones for a file also bounds its size: every block of it, mapped or not,
stands for a zone of its own, and a volume has less than 65535 of them.
-/

namespace Cyanurus

variable {v w : Volume} {p n b t : Nat} {inode : Inode}

/-- Exactly the blocks with bytes of the file are mapped. -/
def Volume.Minix (v : Volume) (inode : Inode) : Prop :=
  ∀ b, b < 2 ^ 16 → (v.Mapped inode.index b ↔ b * blockSize < inode.size)

/-! ## Counting zones -/

theorem freeZones_nodup (sb : Superblock) (d : Disk) : (freeZones sb d).Nodup :=
  (List.nodup_range' 1).filter _

/-- The slots of the first 65535 blocks. -/
def allBlocks : Finset (Nat × List Nat) :=
  (Finset.range 65535).image fun b => (zoneSlot b, blockPath b)

theorem card_allBlocks : allBlocks.card = 65535 := by
  unfold allBlocks
  rw [Finset.card_image_of_injOn, Finset.card_range]
  intro b hb c hc h
  have hb : b < 65535 := Finset.mem_range.mp hb
  have hc : c < 65535 := Finset.mem_range.mp hc
  obtain ⟨h1, h2⟩ := Prod.mk.inj h
  exact blockSlot_inj (by omega) (by omega) h1 h2

/-- Blocks that are mapped have marked zones of their own. -/
theorem Volume.Inv.card_mapped (hv : v.Inv) (hn : Allocated v.sb v.disk n) :
    (allBlocks.filter fun s => v.has n s = true).card
      ≤ ((Finset.Ico v.sb.sFirstdatazone v.sb.sZones).filter
          fun z => zmapBit v.sb v.disk z = true).card := by
  have hslot : ∀ s ∈ allBlocks.filter fun s => v.has n s = true,
      IsSlot s.1 s.2 ∧ zoneOf v.disk (readInode v.sb v.disk n) s.1 s.2 ≠ 0 := by
    intro s hs
    obtain ⟨hmem, hhas⟩ := Finset.mem_filter.mp hs
    obtain ⟨b, hb, rfl⟩ := Finset.mem_image.mp hmem
    have hb : b < 65535 := Finset.mem_range.mp hb
    exact ⟨(blockSlot (by omega)).1, hasZone_eq_true.mp hhas⟩
  refine Finset.card_le_card_of_injOn
    (fun s => zoneOf v.disk (readInode v.sb v.disk n) s.1 s.2) (fun s hs => ?_) fun s hs t ht h => ?_
  · obtain ⟨h1, h2⟩ := hslot s hs
    obtain ⟨hz, hm⟩ := hv.zones.marked hn h1 h2
    exact Finset.mem_coe.mpr (Finset.mem_filter.mpr ⟨Finset.mem_Ico.mpr hz, hm⟩)
  · obtain ⟨h1, h2⟩ := hslot s hs
    obtain ⟨g1, _⟩ := hslot t ht
    obtain ⟨_, e1, e2⟩ := hv.zones.unique hn h1 hn g1 h2 h
    exact Prod.ext e1 e2

/-- **A file for which there are zones has less than 65535 blocks.** -/
theorem Volume.Enough.small (hv : v.Inv) (hn : Allocated v.sb v.disk n) (hen : v.Enough n t) :
    t < maxSize := by
  by_contra hlt
  have hblocks : 65535 ≤ t / blockSize :=
    (Nat.le_div_iff_mul_le (by decide)).mpr (Nat.le_of_not_lt hlt)
  -- the blocks without a zone are among those that are to be mapped
  have hlack : (allBlocks.filter fun s => ¬ v.has n s = true).card ≤ (freeZones v.sb v.disk).length := by
    refine Nat.le_trans (Finset.card_le_card fun s hs => ?_) hen
    obtain ⟨hmem, hhas⟩ := Finset.mem_filter.mp hs
    obtain ⟨b, hb, rfl⟩ := Finset.mem_image.mp hmem
    have hb : b < 65535 := Finset.mem_range.mp hb
    exact Finset.mem_filter.mpr ⟨List.mem_toFinset.mpr (mem_fileSlots.mpr ⟨b, by omega, mem_spine b⟩),
      Bool.eq_false_iff.mpr hhas⟩
  have hfree : (freeZones v.sb v.disk).length
      ≤ ((Finset.Ico v.sb.sFirstdatazone v.sb.sZones).filter
          fun z => ¬ zmapBit v.sb v.disk z = true).card := by
    rw [← List.toFinset_card_of_nodup (freeZones_nodup ..)]
    refine Finset.card_le_card fun z hz => ?_
    obtain ⟨h1, h2, h3⟩ := mem_freeZones.mp (List.mem_toFinset.mp hz)
    exact Finset.mem_filter.mpr ⟨Finset.mem_Ico.mpr ⟨h1, by omega⟩, by rw [h3]; simp⟩
  have hsplit := Finset.card_filter_add_card_filter_not (s := allBlocks) fun s => v.has n s = true
  have hzones := Finset.card_filter_add_card_filter_not
    (s := Finset.Ico v.sb.sFirstdatazone v.sb.sZones) fun z => zmapBit v.sb v.disk z = true
  rw [card_allBlocks] at hsplit
  rw [Nat.card_Ico] at hzones
  have hmapped := hv.card_mapped hn
  have hsmall := hv.small
  have htable := hv.layout.table
  unfold Superblock.inodeZoneIndex Superblock.imapZoneIndex at htable
  omega

/-! ## Appending -/

/-- Between multiples of the block size the two layouts agree. -/
theorem Volume.Minix.laid (hm : v.Minix inode) (hsize : inode.size < maxSize)
    (hoff : inode.size % blockSize ≠ 0) : v.Laid inode.index inode.size := by
  refine ⟨hsize, fun b hb => (hm b ?_).mpr ?_⟩
  · have hmax : maxSize + blockSize = maxOffset := rfl
    exact Nat.lt_of_le_of_lt hb (block_lt (by omega))
  · have h1 := Nat.div_add_mod inode.size blockSize
    have h2 : b * blockSize ≤ inode.size / blockSize * blockSize := Nat.mul_le_mul_right _ hb
    rw [Nat.mul_comm] at h1
    omega

/-- `inode_write` at the end of the file returns `n`, and the file then has its old bytes
followed by `data`. -/
def Volume.Appends (v : Volume) (p : Nat) (inode : Inode) (n : Nat) (data : Bytes) : Prop :=
  ∃ w, inodeWrite v p n inode.size data = .ok (n, w)
    ∧ w.Holds p inode (inode.size + n)
        fun y => if y < inode.size then v.readAt inode.index y else data (y - inode.size)

/-- The slot of a block is on the way to no other block. -/
theorem block_of_spine {c : Nat} (hb : b < 2 ^ 16) (hc : c < 2 ^ 16)
    (h : (zoneSlot b, blockPath b) ∈ spine c) : b = c := by
  obtain ⟨q, hq, heq⟩ := List.mem_map.mp h
  obtain ⟨hslot, rfl⟩ := Prod.mk.inj heq
  have hlen : (blockPath b).length = (blockPath c).length := by
    rw [(blockSlot hb).2, (blockSlot hc).2, hslot]
  exact blockSlot_inj hb hc hslot.symm
    (((List.mem_tails _ _).mp (List.mem_reverse.mp hq)).eq_of_length hlen)

/-- The blocks that were cleared were found. -/
theorem Ext.found {d d' : Disk} {ino : Bytes} {isize y : Nat} (hv : v.Inv) (hn : Allocated v.sb v.disk n)
    (he : Ext v.sb (Allocated v.sb v.disk) (readInode v.sb v.disk) n v.disk d ino) (ht : t < 2 ^ 32)
    (hcl : clearLoop v.sb n t fileRounds d isize (t - isize) = .ok (true, d')) (h1 : isize ≤ y)
    (h2 : y < t) : blockZone d (readInode v.sb v.disk n) (y / blockSize % 2 ^ 16) ≠ 0 := by
  obtain ⟨ok, d'', hrun, hok, _⟩ := clearLoop_ext hv hn he (Nat.le_of_lt (Nat.lt_of_le_of_lt h1 h2)) ht
  cases hrun.symm.trans hcl
  exact hok.mp rfl y h1 h2

/-- Where the size is a multiple of the block size, the next block is not found. -/
theorem Volume.Minix.stuck (hv : v.Inv) (hp : v.inodes.get p = some inode) (hm : v.Minix inode)
    (hoff : inode.size % blockSize = 0) {t : Nat} (hlt : inode.size < t) (ht : t < maxSize)
    {rest : List (Nat × List Nat)} {r : Int} (h : Truncated v p inode t rest r w) : r < 0 := by
  have hmax : maxSize + blockSize = maxOffset := rfl
  have hidx := (hv.live hp).1
  have hb := block_lt (y := inode.size) (by omega)
  cases h with
  | same h => omega
  | shrunk h _ _ => omega
  | full _ _ => decide
  | gap _ _ _ => decide
  | @grown d d' ino _ hg hcl =>
    have h32 : maxSize < 2 ^ 32 := by decide
    have hfound := hg.ext.found hv hidx (Nat.lt_trans ht h32) hcl (Nat.le_refl _) hlt
    rw [Nat.mod_eq_of_lt hb] at hfound
    -- the block is not mapped on disk, and the extension begins with the next one
    have hno : zoneOf v.disk (readInode v.sb v.disk inode.index)
        (zoneSlot (inode.size / blockSize)) (blockPath (inode.size / blockSize)) = 0 := by
      by_contra h0
      have := (hm _ hb).mp h0
      have := Nat.div_mul_cancel (Nat.dvd_of_mod_eq_zero hoff)
      omega
    refine absurd ?_ hfound
    rcases hg.ext.disk (blockSlot hb).1 with h0 | h0
    · exact h0
    · refine h0.trans ((hg.takes.only (s := (_, _)) (blockSlot hb).1 fun hmem => ?_).trans hno)
      obtain ⟨c, hc, hs⟩ := List.mem_flatMap.mp hmem
      have hc := List.mem_range'_1.mp hc
      rw [extendStart_eq ht, extendStart_eq (Nat.lt_trans hlt ht)] at hc
      have hct : t / blockSize < 65535 := Nat.div_lt_of_lt_mul (by rw [Nat.mul_comm]; exact ht)
      have := block_of_spine hb (by omega) hs
      omega

/-- So nothing is appended to a file that ends with a block. -/
theorem Volume.Minix.no_append (hm : v.Minix inode) (hv : v.Inv) (hp : v.inodes.get p = some inode) {k : Nat}
    (hk : 1 ≤ k) (hE : inode.size + k < maxSize) (hc : v.CleanWrite inode inode.size k)
    (hoff : inode.size % blockSize = 0) {data : Bytes} :
    inodeWrite v p k inode.size data ≠ .ok (k, w) := by
  intro hrun
  obtain ⟨hcopy, _, _, hm1, _, _, _⟩ := round_arith hE
  have hle : inode.size / blockSize ≤ (inode.size + k) / blockSize :=
    Nat.div_le_div_right (Nat.le_add_right _ _)
  have h32 : maxSize < 2 ^ 32 := by decide
  have hpos := (clear_arith (show inode.size < inode.size + k by omega) (by omega)).1
  rw [Nat.add_sub_cancel_left] at hpos
  rcases inodeWrite_cases hp hrun with ⟨hlt, _⟩ | ⟨hround, t, x, hgrow, hrest⟩
  · obtain ⟨hfirst, hstop, _⟩ := range_arith hE
    omega
  · obtain ⟨rest, hslots, hclean⟩ := hc.round hround
    rcases growTo_cases hv hp hslots hclean hgrow with ⟨hge, _⟩ | ⟨hlt, ht⟩
    · omega
    · have := hm.stuck hv hp hoff hlt (by omega) ht
      omega

/-- **A file laid out by the image tools can be appended to** exactly if its size is no multiple of
the block size and there are zones for the blocks. -/
theorem minix_append (hv : v.Inv) (hp : v.inodes.get p = some inode) (hm : v.Minix inode) {k : Nat}
    (hk : 1 ≤ k) (data : Bytes) (hb : bitAt v.disk v.sb.zmapStart 0 = true)
    (hc : v.CleanWrite inode inode.size k) :
    (inode.size + k < maxSize ∧ v.Appends p inode k data)
      ↔ inode.size % blockSize ≠ 0 ∧ v.Enough inode.index (inode.size + k) := by
  constructor
  · rintro ⟨hE, w, hrun, _⟩
    have hoff : inode.size % blockSize ≠ 0 := fun hoff => hm.no_append hv hp hk hE hc hoff hrun
    have hl := hm.laid (by omega) hoff
    exact ⟨hoff, ((inodeWrite_whole hv hp data hE hl hb hc).2 hrun).2⟩
  · rintro ⟨hoff, hen⟩
    have hE := hen.small hv (hv.live hp).1
    have hl := hm.laid (by omega) hoff
    obtain ⟨w, hrun, hpat⟩ := (inodeWrite_whole hv hp data hE hl hb hc).1
      (gapMapped_of_block (round_arith hE).2.2.1) hen
    have hh := hpat.holds hv hp hl hE
    rw [Nat.max_eq_right (Nat.le_add_right _ _)] at hh
    refine ⟨hE, w, hrun, hh.get, fun start len out hlen => ?_⟩
    rw [hh.read start len out hlen]
    refine congrArg Except.ok (Prod.ext rfl (funext fun x => ?_))
    simp only []
    split
    · unfold overlay
      by_cases hx : start + x < inode.size
      · rw [if_neg (by omega), if_neg (by omega), if_pos hx]
      · rw [if_pos (by omega), if_neg hx]
    · rfl

/-- Inode 1 has no block, or five bytes in zone 5. Three or two zones can be handed out. -/
def minixVolume (five : Bool) : Volume where
  sb := ⟨64, 1, 1, 5, 9⟩
  disk := fun b =>
    if b = 2 then fun x => if x = 0 then 0b11 else 0
    else if b = 3 then fun x => if x = 0 then (if five then 0b11 else 0b01) else 0
    else if b = 4 then if five then setZone (setSize (fun _ => 0) 5) 0 5 else fun _ => 0
    else fun _ => 0
  inodes := Store.empty
  list := []

/-- The file that is loaded, and the object for it. -/
def minixLoaded (five : Bool) : Volume := (inodeGet (minixVolume five) 1).2

theorem minixVolume_slot {five : Bool} {k : Nat} {q : List Nat}
    (hn : Allocated (minixVolume five).sb (minixVolume five).disk n) (hs : IsSlot k q)
    (h0 : zoneOf (minixVolume five).disk (readInode (minixVolume five).sb (minixVolume five).disk n) k q
      ≠ 0) :
    n = 1 ∧ k = 0 ∧ q = [] ∧ five = true ∧ zoneOf (minixVolume five).disk
      (readInode (minixVolume five).sb (minixVolume five).disk n) k q = 5 := by
  have hbits : ∀ n ≤ 64, imapBit (minixVolume five).disk n = true → n = 0 ∨ n = 1 := by
    cases five <;> decide
  have hzones : ∀ k ≤ 8, iZone (readInode (minixVolume five).sb (minixVolume five).disk 1) k
      = if k = 0 ∧ five = true then 5 else 0 := by
    cases five <;> decide
  have hn1 : n = 1 := (hbits n hn.1.2 hn.2).resolve_left (by have := hn.1.1; omega)
  subst hn1
  have hroot := hzones k hs.1
  by_cases hk : k = 0 ∧ five = true
  · obtain ⟨rfl, hf⟩ := hk
    have hq : q = [] := List.length_eq_zero_iff.mp (Nat.le_zero.mp hs.2.1)
    subst hq
    rw [if_pos ⟨rfl, hf⟩] at hroot
    exact ⟨rfl, rfl, rfl, hf, hroot⟩
  · rw [if_neg hk] at hroot
    exact absurd (zoneOf_empty hroot q) h0

theorem minixVolume_mounted (five : Bool) : (minixVolume five).Mounted := by
  have hl : Superblock.Layout ⟨64, 1, 1, 5, 9⟩ := ⟨by decide, by decide, by decide, by decide⟩
  refine ⟨hl, ⟨fun hn hs h0 => ?_, fun hn hs h0 => ?_,
    fun hn hs hm hq h0 he => ?_⟩, rfl, rfl⟩
  · obtain ⟨_, _, _, _, h⟩ := minixVolume_slot hn hs h0
    rw [h]
    exact ⟨Nat.le_refl 5, show 5 < 9 by decide⟩
  · obtain ⟨_, _, _, rfl, h⟩ := minixVolume_slot hn hs h0
    rw [h]
    decide
  · obtain ⟨rfl, rfl, rfl, _, _⟩ := minixVolume_slot hn hs h0
    obtain ⟨rfl, rfl, rfl, _, _⟩ := minixVolume_slot hm hq (by rw [← he]; exact h0)
    exact ⟨rfl, rfl, rfl⟩

theorem minixLoaded_inv (five : Bool) : (minixLoaded five).Inv := by
  have h1 : Allocated (minixVolume five).sb (minixVolume five).disk 1 := by
    refine ⟨⟨Nat.le_refl 1, show 1 ≤ 64 by decide⟩, ?_⟩
    cases five <;> decide
  exact inodeGet_inv ((minixVolume_mounted five).inv (show 9 ≤ 2 ^ 16 by decide)) h1

theorem minixLoaded_get (five : Bool) :
    (minixLoaded five).inodes.get 0 = some ⟨1, 0, 0, if five then 5 else 0⟩ := by
  cases five <;> decide

theorem minixLoaded_minix (five : Bool) :
    (minixLoaded five).Minix ⟨1, 0, 0, if five then 5 else 0⟩ := by
  intro b hb
  have hn := (minixLoaded_inv five).live (minixLoaded_get five)
  obtain ⟨hsb, hd⟩ := inodeGet_disk (minixVolume five) 1
  have hn1 : Allocated (minixVolume five).sb (minixVolume five).disk 1 := by
    exact hn.1
  unfold Volume.Mapped
  constructor
  · intro h0
    obtain ⟨_, hk, _, rfl, _⟩ := minixVolume_slot hn1 (blockSlot hb).1 h0
    have hb0 : b = 0 := by
      rcases blockPath_cases hb with ⟨_, h, _⟩ | ⟨h, _⟩ | ⟨h, _⟩ <;> omega
    subst hb0
    decide
  · cases five with
    | false => exact fun h => absurd h (by simp)
    | true =>
      intro h
      have hb0 : b = 0 := by
        unfold blockSize at h
        simp only [if_true] at h
        omega
      subst hb0
      decide

/-- A byte is appended to the file with five. -/
theorem minix_append_five : (minixLoaded true).Appends 0 ⟨1, 0, 0, 5⟩ 1 fun _ => 7 :=
  ((minix_append (minixLoaded_inv true) (minixLoaded_get true) (minixLoaded_minix true) (by decide) _
    (by decide) (clean_of_direct (writeSlots_direct (by decide)))).mpr ⟨by decide, by decide⟩).2

/-- The slots of the blocks with bytes of a file of `t` bytes. -/
def dataSlots (t : Nat) : List (Nat × List Nat) :=
  (List.range ((t + blockSize - 1) / blockSize)).flatMap spine

/-- An empty file of the image tools cannot be appended to. -/
theorem minix_append_empty : ¬ ∀ (v : Volume) (p k : Nat) (inode : Inode) (data : Bytes), v.Inv →
    bitAt v.disk v.sb.zmapStart 0 = true → v.inodes.get p = some inode → v.Minix inode → 1 ≤ k →
    missing (v.has inode.index) (dataSlots (inode.size + k)) ≤ v.unmarked.length →
    v.Appends p inode k data := by
  intro h
  obtain ⟨w, hrun, _⟩ := h (minixLoaded false) 0 1 ⟨1, 0, 0, 0⟩ (fun _ => 7) (minixLoaded_inv false)
    (by decide) (minixLoaded_get false) (minixLoaded_minix false) (by decide)
    (by decide)
  have hret : (inodeWrite (minixLoaded false) 0 1 0 fun _ => 7).toOption.map Prod.fst
      = some enospc := by decide
  rw [hrun] at hret
  cases hret

end Cyanurus
