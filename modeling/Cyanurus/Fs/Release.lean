import Cyanurus.Fs.Content
import Cyanurus.Fs.Superblock

/-!
# What shrinking a file gives back

A file whose blocks `0 .. i_size / BLOCK_SIZE` are all mapped, with the indirect zones on the
way to them and nothing else. `shrink_zone` cuts the blocks off from the end. With a block go
the slots that no earlier block needs, so that after every round the zones of the file are
again those of its blocks and of the indirect zones on the way to them, and the marks that
were taken away are those of all other zones it had (`Left`).

Nothing is assumed about the other inodes. Of the disk, the zone map, the inode and its own
indirect zones are written: an inode that shares no zone with the file is not affected.
-/

namespace Cyanurus

variable {sb : Superblock} {d d' d'' d₀ : Disk} {f : Nat → Bytes} {ino ino' ino'' ino₀ : Bytes}
  {n k z b : Nat} {p : List Nat} {R R' : Nat → List Nat → Prop} {slots : List (Nat × List Nat)}

/-! ## The slots that are left -/

/-- Of the slots that were filled on `d₀`, those in `R` are left, and the zones of the others
are given back. -/
structure Left (sb : Superblock) (d₀ : Disk) (ino₀ : Bytes) (R : Nat → List Nat → Prop) (d : Disk)
    (ino : Bytes) : Prop where
  kept : ∀ {k p}, IsSlot k p → R k p → zoneOf d ino k p = zoneOf d₀ ino₀ k p
  gone : ∀ {k p}, IsSlot k p → ¬ R k p → zoneOf d ino k p = 0
  marks : ∀ {z}, sb.IsZone z → (zmapBit sb d z = true ↔
    zmapBit sb d₀ z = true ∧ ∀ k p, IsSlot k p → zoneOf d₀ ino₀ k p = z → R k p)

theorem Left.congr (h : Left sb d₀ ino₀ R d ino)
    (hR : ∀ {k p}, IsSlot k p → (R' k p ↔ R k p)) : Left sb d₀ ino₀ R' d ino where
  kept := fun hs hr => h.kept hs ((hR hs).mp hr)
  gone := fun hs hr => h.gone hs fun hr' => hr ((hR hs).mpr hr')
  marks := fun {z} hz => by
    rw [h.marks hz]
    exact and_congr_right fun _ => forall₄_congr fun k p hs _ => (hR hs).symm

/-- A slot is cut off below which nothing is left. -/
theorem Left.cut (h : Left sb d₀ ino₀ R d ino) (hc : CutOff sb d ino k p d' ino')
    (hlow : ∀ q, IsSlot k q → p <:+ q → R k q → q = p) :
    Left sb d₀ ino₀ (fun l q => R l q ∧ (l, q) ≠ (k, p)) d' ino' where
  kept := fun {l q} hq hr => by
    rw [hc.spares l q hq fun hl hsuf => ?_]
    · exact h.kept hq hr.1
    · subst hl
      exact hr.2 (by rw [hlow q hq hsuf hr.1])
  gone := fun {l q} hq hr => by
    by_cases hbelow : l = k ∧ p <:+ q
    · rw [hbelow.1]
      exact zoneOf_below_zero hc.gone hbelow.2
    · rw [hc.spares l q hq fun hl hsuf => hbelow ⟨hl, hsuf⟩]
      refine h.gone hq fun hR => hr ⟨hR, fun he => hbelow ?_⟩
      obtain ⟨rfl, rfl⟩ := Prod.mk.inj he
      exact ⟨rfl, List.suffix_refl _⟩
  marks := fun {z} hz => by
    have hR : R k p := Classical.byContradiction fun hR => hc.was (h.gone hc.slot hR)
    have hold := h.kept hc.slot hR
    rw [hc.marks z hz, Bool.and_eq_true, decide_eq_true_eq, h.marks hz, hold]
    constructor
    · rintro ⟨⟨hm, hall⟩, hne⟩
      refine ⟨hm, fun l q hq he => ⟨hall l q hq he, fun heq => hne ?_⟩⟩
      obtain ⟨rfl, rfl⟩ := Prod.mk.inj heq
      exact he.symm
    · rintro ⟨hm, hall⟩
      exact ⟨⟨hm, fun l q hq he => (hall l q hq he).1⟩, fun he => (hall k p hc.slot he.symm).2 rfl⟩

/-- **Slots are cut off from below**, with everything that is left below them. -/
theorem Left.cuts (hcuts : Cuts sb d ino slots d' ino') (h : Left sb d₀ ino₀ R d ino)
    (hlow : ∀ s ∈ slots, ∀ q, IsSlot s.1 q → s.2 <:+ q → R s.1 q → (s.1, q) ∈ slots)
    (hord : slots.Pairwise fun s t => s.1 = t.1 → ¬ s.2 <:+ t.2) :
    Left sb d₀ ino₀ (fun l q => R l q ∧ (l, q) ∉ slots) d' ino' := by
  induction hcuts generalizing R with
  | nil => exact h.congr fun _ => ⟨fun hr => hr.1, fun hr => ⟨hr, List.not_mem_nil⟩⟩
  | @cons d d' d'' ino ino' ino'' k p slots hcut _ ih =>
    rw [List.pairwise_cons] at hord
    have hstep := h.cut hcut fun q hq hsuf hr => by
      rcases List.mem_cons.mp (hlow (k, p) (List.mem_cons_self ..) q hq hsuf hr) with he | he
      · exact (Prod.mk.inj he).2
      · exact absurd hsuf (hord.1 _ he rfl)
    refine (ih hstep (fun s hs q hq hsuf hr => ?_) hord.2).congr fun {l q} _ => ?_
    · exact (List.mem_cons.mp (hlow s (List.mem_cons_of_mem _ hs) q hq hsuf hr.1)).resolve_left hr.2
    · rw [List.mem_cons, not_or, and_assoc]

/-! ## Shrinking -/

/-- The slot is on the way to one of the blocks up to `b`. -/
def OnTheWay (b k : Nat) (p : List Nat) : Prop := ∃ c, c ≤ b ∧ zoneSlot c = k ∧ p <:+ blockPath c

theorem onTheWay_iff (hb : b < 2 ^ 16) (hs : IsSlot k p) : OnTheWay b k p ↔ slotBlock k p ≤ b := by
  constructor
  · rintro ⟨c, hc, rfl, hp⟩
    exact Nat.le_trans (slotBlock_le (by omega) hp) hc
  · intro h
    obtain ⟨h1, h2⟩ := mem_blockSlots_iff.mp ((mem_blockSlots (by omega)).mpr ⟨hs, rfl⟩)
    exact ⟨_, h, h1, cutPaths_suffix h2⟩

variable {A : Nat → Prop}

/-- The slot of a block goes with it. -/
theorem slotBlock_blockPath (hb : b < 2 ^ 16) : slotBlock (zoneSlot b) (blockPath b) = b := by
  refine ((mem_blockSlots hb).mp (mem_blockSlots_iff.mpr ⟨rfl, ?_⟩)).2
  cases blockPath b with
  | nil => exact List.mem_singleton_self []
  | cons j q => exact List.mem_cons_self ..

/-- A round of `shrink_zone`, on a block that is mapped. -/
theorem shrinkBlock_left (hl : sb.Layout) (hz : sb.sZones ≤ 2 ^ 16) (hn : A n)
    (hs : Shrunk sb A f n d₀ d ino) (hb : b + 1 < 2 ^ 16) (h0 : blockZone d₀ (f n) (b + 1) ≠ 0)
    (h : Left sb d₀ (f n) (fun k p => slotBlock k p ≤ b + 1) d ino) :
    Left sb d₀ (f n) (fun k p => slotBlock k p ≤ b)
      (shrinkBlock sb d ino (b + 1)).1 (shrinkBlock sb d ino (b + 1)).2 := by
  have hown : blockZone d ino (b + 1) = blockZone d₀ (f n) (b + 1) :=
    h.kept (blockSlot hb).1 (Nat.le_of_eq (slotBlock_blockPath hb))
  rcases shrinkBlock_cuts hl hz hn hs hb with ⟨hzero, _⟩ | ⟨_, hcuts⟩
  · rw [hown] at hzero
    exact absurd hzero h0
  · refine (Left.cuts hcuts h (fun s hs q hq hsuf hle => ?_) (blockSlots_pairwise _)).congr
      fun {k p} hk => ?_
    · exact blockSlots_below hb hs hq hsuf hle
    · rw [mem_blockSlots hb]
      constructor
      · intro hle
        exact ⟨by omega, fun he => by omega⟩
      · rintro ⟨hle, hne⟩
        have : slotBlock k p ≠ b + 1 := fun he => hne ⟨hk, he⟩
        omega

/-- **The loop of `shrink_zone` leaves the slots on the way to the blocks that stay.** -/
theorem shrinkLoop_left (hl : sb.Layout) (hz : sb.sZones ≤ 2 ^ 16) (hn : A n) (stop : Nat) :
    ∀ (m : Nat) {d : Disk} {ino : Bytes}, stop + m < 2 ^ 16 →
      (∀ c, c ≤ stop + m → blockZone d₀ (f n) c ≠ 0) → Shrunk sb A f n d₀ d ino →
      Left sb d₀ (f n) (fun k p => slotBlock k p ≤ stop + m) d ino →
      Left sb d₀ (f n) (fun k p => slotBlock k p ≤ stop)
        (shrinkLoop sb stop d ino m).1 (shrinkLoop sb stop d ino m).2
  | 0, _, _, _, _, _, h => h
  | m + 1, d, ino, hm, h0, hs, h => by
    have hround := shrinkBlock_left hl hz hn hs hm (h0 _ (Nat.le_refl _)) h
    exact shrinkLoop_left hl hz hn stop m (by omega) (fun c hc => h0 c (by omega))
      (shrinkBlock_shrunk hl hz hn hs hm).1 hround

/-! ## A file without gaps -/

variable {v v' : Volume} {pt size : Nat} {inode : Inode}

/-- The zone in a slot of inode `n`. -/
def Volume.zoneIn (v : Volume) (n k : Nat) (p : List Nat) : Nat :=
  zoneOf v.disk (readInode v.sb v.disk n) k p

/-- The inode at `pt` maps its blocks up to the last one and nothing beyond, in zones of its
own: every zone is marked and sits in one slot. -/
structure Volume.Filled (v : Volume) (pt : Nat) (inode : Inode) : Prop where
  layout : v.sb.Layout
  small : v.sb.sZones ≤ 2 ^ 16
  get : v.inodes.get pt = some inode
  index : v.sb.IsInode inode.index
  /-- The size in memory is the one on disk. -/
  size : inode.size = v.sizeOf inode.index
  blocks : inode.size / blockSize < 2 ^ 16
  zones : Zones v.sb v.disk (· = inode.index) (readInode v.sb v.disk)
  tree : ∀ {k p}, IsSlot k p →
    (v.zoneIn inode.index k p ≠ 0 ↔ OnTheWay (inode.size / blockSize) k p)

/-- A zone that the file loses when it is cut to `size`: the zone of a block above the last one,
or an indirect zone that is on the way to no block any more. -/
def Volume.Loses (v : Volume) (n size z : Nat) : Prop :=
  ∃ k p, IsSlot k p ∧ v.zoneIn n k p = z ∧ ¬ OnTheWay (size / blockSize) k p

/-- The zones of inode `m` are data zones of the volume, and inode `n` has none of them. -/
def Volume.SharesNone (v : Volume) (m n : Nat) : Prop :=
  ∀ k p, IsSlot k p → v.zoneIn m k p ≠ 0 → v.sb.IsZone (v.zoneIn m k p)
    ∧ ∀ l q, IsSlot l q → v.zoneIn n l q ≠ v.zoneIn m k p

/-- What a step that works on inode `n` leaves alone. -/
structure Volume.Spares (v v' : Volume) (n : Nat) : Prop where
  sb : v'.sb = v.sb
  /-- The other inodes on disk. -/
  inodes : ∀ {m}, v.sb.IsInode m → m ≠ n → readInode v.sb v'.disk m = readInode v.sb v.disk m
  /-- The zones that are no indirect zones of the file. -/
  zones : ∀ {z}, v.sb.IsZone z →
    (∀ k p, IsSlot k p → p.length < k - 6 → v.zoneIn n k p ≠ z) → v'.disk z = v.disk z

/-- An inode that shares no zone with the file keeps all its zones, and what they hold. -/
theorem Volume.Spares.apart (h : v.Spares v' n) {m : Nat} (hm : v.sb.IsInode m) (hne : m ≠ n)
    (hapart : v.SharesNone m n) (hs : IsSlot k p) :
    v'.zoneIn m k p = v.zoneIn m k p
      ∧ (v.zoneIn m k p ≠ 0 → v'.disk (v.zoneIn m k p) = v.disk (v.zoneIn m k p)) := by
  have hsame : ∀ {l q}, IsSlot l q → v.zoneIn m l q ≠ 0 →
      v'.disk (v.zoneIn m l q) = v.disk (v.zoneIn m l q) := by
    intro l q hq h0
    obtain ⟨h1, h2⟩ := hapart l q hq h0
    exact h.zones h1 fun k p hs _ => h2 k p hs
  refine ⟨?_, hsame hs⟩
  unfold Volume.zoneIn
  rw [h.sb, h.inodes hm hne]
  refine zoneOf_congr (fun j q hq h0 => ?_) (fun _ _ => rfl) hs
  exact congrArg (zoneWord · j) (hsame hq.up h0)

/-- **The file is cut to `size` bytes**, and exactly the zones it loses are given back. -/
structure Volume.CutTo (v v' : Volume) (pt : Nat) (inode : Inode) (size : Nat) : Prop where
  spares : v.Spares v' inode.index
  get : v'.inodes.get pt = some { inode with size := size }
  length : v'.sizeOf inode.index = size
  kept : ∀ {k p}, IsSlot k p → OnTheWay (size / blockSize) k p →
    v'.zoneIn inode.index k p = v.zoneIn inode.index k p
  gone : ∀ {k p}, IsSlot k p → ¬ OnTheWay (size / blockSize) k p → v'.zoneIn inode.index k p = 0
  marks : ∀ {z}, v.sb.IsZone z → (zmapBit v.sb v'.disk z = true ↔
    zmapBit v.sb v.disk z = true ∧ ¬ v.Loses inode.index size z)
  imap : ∀ {m}, v.sb.IsInode m → imapBit v'.disk m = imapBit v.disk m

/-- A cut to the size that the file has. -/
theorem Volume.Filled.cutTo_same (h : v.Filled pt inode) : v.CutTo v pt inode inode.size where
  spares := ⟨rfl, fun _ _ => rfl, fun _ _ => rfl⟩
  get := h.get
  length := h.size.symm
  kept := fun _ _ => rfl
  gone := fun hs hno => Classical.byContradiction fun h0 => hno ((h.tree hs).mp h0)
  marks := fun {z} hz => by
    refine ⟨fun hm => ⟨hm, ?_⟩, fun hm => hm.1⟩
    rintro ⟨k, p, hs, he, hno⟩
    have hz0 : v.zoneIn inode.index k p ≠ 0 := by
      have := hz.1
      have := h.layout.first_pos
      omega
    exact hno ((h.tree hs).mp hz0)
  imap := fun _ => rfl

theorem Volume.Filled.size_lt (h : v.Filled pt inode) : inode.size < 2 ^ 32 := by
  rw [h.size]
  exact Bytes.load_lt _ 4 _

theorem Volume.Filled.zone_ne_zero (h : v.Filled pt inode) (hz : v.sb.IsZone z) : z ≠ 0 := by
  have := hz.1
  have := h.layout.first_pos
  omega

/-- Before the first round all slots are there. -/
theorem Volume.Filled.left (h : v.Filled pt inode) :
    Left v.sb v.disk (readInode v.sb v.disk inode.index)
      (fun k p => slotBlock k p ≤ inode.size / blockSize) v.disk
      (readInode v.sb v.disk inode.index) where
  kept := fun _ _ => rfl
  gone := fun hs hno => Classical.byContradiction fun h0 =>
    hno ((onTheWay_iff h.blocks hs).mp ((h.tree hs).mp h0))
  marks := fun {z} hz => by
    refine ⟨fun hm => ⟨hm, fun k p hs he => ?_⟩, fun hm => hm.1⟩
    refine (onTheWay_iff h.blocks hs).mp ((h.tree hs).mp fun h0 => h.zone_ne_zero hz ?_)
    rw [← he]
    exact h0

/-- **`shrink_zone` on such a file.** -/
theorem Volume.Filled.shrinkZone (h : v.Filled pt inode) (hsize : size < inode.size) :
    ∃ d ino, shrinkZone v.sb v.disk (readInode v.sb v.disk inode.index) size = (d, setSize ino size)
      ∧ Shrunk v.sb (· = inode.index) (readInode v.sb v.disk) inode.index v.disk d ino
      ∧ Left v.sb v.disk (readInode v.sb v.disk inode.index) (OnTheWay (size / blockSize)) d ino := by
  have hblocks := h.blocks
  have hle : size / blockSize ≤ inode.size / blockSize := Nat.div_le_div_right (Nat.le_of_lt hsize)
  have hstart : iSize (readInode v.sb v.disk inode.index) / blockSize % 2 ^ 16
      = inode.size / blockSize := by
    rw [show iSize (readInode v.sb v.disk inode.index) = inode.size from h.size.symm]
    exact Nat.mod_eq_of_lt hblocks
  have hstop : size / blockSize % 2 ^ 16 = size / blockSize := Nat.mod_eq_of_lt (by omega)
  have hsum : size / blockSize + (inode.size / blockSize - size / blockSize)
      = inode.size / blockSize := by omega
  have hrefl := Shrunk.refl h.zones inode.index
  have hshrunk := (shrinkLoop_shrunk h.layout h.small (A := (· = inode.index)) rfl
    (size / blockSize) (inode.size / blockSize - size / blockSize) (by omega) hrefl).1
  have hleft := shrinkLoop_left h.layout h.small (A := (· = inode.index)) rfl (size / blockSize)
    (inode.size / blockSize - size / blockSize) (by omega)
    (fun c hc => (h.tree (blockSlot (by omega)).1).mpr ⟨c, by omega, rfl, List.suffix_refl _⟩)
    hrefl (by rw [hsum]; exact h.left)
  refine ⟨_, _, ?_, hshrunk, hleft.congr fun hs => onTheWay_iff (by omega) hs⟩
  unfold Cyanurus.shrinkZone
  rw [hstart, hstop]

/-- **The copy of the inode that is left is written back.** -/
theorem Volume.Filled.finish (h : v.Filled pt inode) (hsize : size < 2 ^ 32)
    (hs : Shrunk v.sb (· = inode.index) (readInode v.sb v.disk) inode.index v.disk d ino)
    (hleft : Left v.sb v.disk (readInode v.sb v.disk inode.index) (OnTheWay (size / blockSize)) d ino) :
    v.CutTo (truncateEnd v pt inode.index d (setSize ino size)) pt inode size := by
  have hl := h.layout
  obtain ⟨htab, hself, hother⟩ := writeInode_spec hl d h.index (setSize ino size)
  have hside : ZoneSide v.sb v.disk d := hs.rest
  have hzone : ∀ {k p}, IsSlot k p → zoneOf (writeInode v.sb d inode.index (setSize ino size))
      (readInode v.sb (writeInode v.sb d inode.index (setSize ino size)) inode.index) k p
      = zoneOf d ino k p := by
    intro k p hk
    refine zoneOf_congr (fun j q hq h0 => ?_) (fun l hle => ?_) hk
    · unfold zoneMem
      rw [htab.zone (hs.zones.marked_self rfl hq.up h0).1.1]
    · rw [iZone_congr hself (by omega), iZone_setSize]
  refine ⟨⟨rfl, fun {m} hm hne => ?_, fun {z} hz hno => ?_⟩, ?_, ?_, fun hk hr => ?_, fun hk hr => ?_,
    fun {z} hz => ?_, fun {m} hm => ?_⟩
  · exact (hother m hm hne).trans (hside.readInode hl hm)
  · exact (htab.zone hz.1).trans (hs.same hz.1 hno)
  · rw [truncateEnd_get h.get, iSize_setSize, Nat.mod_eq_of_lt hsize]
  · refine (iSize_congr fun x hx => hself x (by omega)).trans ?_
    rw [iSize_setSize, Nat.mod_eq_of_lt hsize]
  · exact (hzone hk).trans (hleft.kept hk hr)
  · exact (hzone hk).trans (hleft.gone hk hr)
  · refine Iff.trans ?_ ((hleft.marks hz).trans (and_congr_right fun _ => ?_))
    · exact iff_of_eq (congrArg (· = true) (htab.zmapBit hl hz))
    · unfold Volume.Loses
      push Not
      exact Iff.rfl
  · exact (htab.imapBit hl hm).trans (hside.imapBit hl hm)

/-- **`inode_truncate` on such a file.** -/
theorem Volume.Filled.truncate (h : v.Filled pt inode) (hsize : size ≤ inode.size) :
    ∃ v', inodeTruncate v pt size = .ok (0, v') ∧ v.CutTo v' pt inode size := by
  unfold inodeTruncate
  rw [h.get]
  simp only []
  by_cases he : size = inode.size
  · rw [if_pos he, he]
    exact ⟨v, rfl, h.cutTo_same⟩
  · have h32 := h.size_lt
    obtain ⟨d, ino, hshrink, hs, hleft⟩ := h.shrinkZone (show size < inode.size by omega)
    rw [if_neg he, if_neg (by omega), hshrink]
    exact ⟨_, rfl, h.finish (by omega) hs hleft⟩

section CutTo

variable (h : v.Filled pt inode) (hcut : v.CutTo v' pt inode size)
include h hcut

/-- The zones that are left are still owned. -/
theorem Volume.CutTo.zones :
    Zones v.sb v'.disk (· = inode.index) (readInode v.sb v'.disk) := by
  have hslots : ∀ {s : Nat × Nat} {q : List Nat}, (zoneShape (· = inode.index)).ok s q →
      Forest.follow (zoneRoot (readInode v.sb v'.disk)) (zoneMem v'.disk) s q = v'.zoneIn inode.index s.2 q
      ∧ Forest.follow (zoneRoot (readInode v.sb v.disk)) (zoneMem v.disk) s q
        = v.zoneIn inode.index s.2 q := by
    rintro ⟨m, k⟩ q ⟨rfl, _⟩
    rw [follow_zoneRoot, follow_zoneRoot]
    unfold Volume.zoneIn
    rw [hcut.spares.sb]
    exact ⟨rfl, rfl⟩
  refine h.zones.sub (fun {s q} hq => ?_) fun {s q} hq h0 => ?_
  · rw [(hslots hq).1, (hslots hq).2]
    by_cases hon : OnTheWay (size / blockSize) s.2 q
    · exact Or.inr (hcut.kept hq.2 hon)
    · exact Or.inl (hcut.gone hq.2 hon)
  · rw [(hslots hq).1] at h0 ⊢
    have hon : OnTheWay (size / blockSize) s.2 q :=
      Classical.byContradiction fun hno => h0 (hcut.gone hq.2 hno)
    rw [hcut.kept hq.2 hon] at h0 ⊢
    have hm := h.zones.marked rfl hq.2 h0
    refine ⟨hm.1, (hcut.marks hm.1).mpr ⟨hm.2, ?_⟩⟩
    -- a zone that is left sits in no other slot, so it is not lost
    rintro ⟨k, p, hk, he, hno⟩
    obtain ⟨_, rfl, rfl⟩ := h.zones.unique (n := inode.index) (m := inode.index) rfl hq.2 rfl hk h0 he.symm
    exact hno hon

/-- **`get_block` finds the blocks that stay where they were, and no others.** -/
theorem Volume.CutTo.getBlock (hb : b < 2 ^ 16) :
    getBlock v'.sb v'.disk inode.index b
      = if b ≤ size / blockSize then getBlock v.sb v.disk inode.index b else 0 := by
  have hslot := (blockSlot hb).1
  have hnew : Cyanurus.getBlock v'.sb v'.disk inode.index b
      = v'.zoneIn inode.index (zoneSlot b) (blockPath b) := by
    unfold Volume.zoneIn
    rw [hcut.spares.sb]
    exact getBlock_eq h.layout h.small (hcut.zones h).sited rfl rfl hb
  have hold : Cyanurus.getBlock v.sb v.disk inode.index b
      = v.zoneIn inode.index (zoneSlot b) (blockPath b) :=
    getBlock_eq h.layout h.small h.zones.sited rfl rfl hb
  rw [hnew, hold]
  split
  · rename_i hle
    exact hcut.kept hslot ⟨b, hle, rfl, List.suffix_refl _⟩
  · refine hcut.gone hslot ?_
    rintro ⟨c, hc, hk, hsuf⟩
    have := slotBlock_le (p := blockPath b) (show c < 2 ^ 16 by omega) hsuf
    rw [hk, slotBlock_blockPath hb] at this
    omega

/-- **The bytes that stay are kept.** -/
theorem Volume.CutTo.fileAt (hsize : size ≤ inode.size) {y : Nat} (hy : y < size) :
    v'.fileAt inode.index y = v.fileAt inode.index y := by
  have hblock : y / blockSize ≤ size / blockSize := Nat.div_le_div_right (Nat.le_of_lt hy)
  have hlast : size / blockSize ≤ inode.size / blockSize := Nat.div_le_div_right hsize
  have hb : y / blockSize < 2 ^ 16 := by
    have := h.blocks
    omega
  obtain ⟨hslot, hlen⟩ := blockSlot hb
  unfold Volume.fileAt
  rw [hcut.spares.sb]
  refine byteAt_congr ?_ fun h0 => ?_
  · have := hcut.kept hslot ⟨_, hblock, rfl, List.suffix_refl _⟩
    unfold Volume.zoneIn at this
    rw [hcut.spares.sb] at this
    exact this
  · -- the zone holds data, so it is no indirect zone
    refine congrFun (hcut.spares.zones (h.zones.marked rfl hslot h0).1 fun k p hk hlt he => ?_) _
    obtain ⟨_, rfl, rfl⟩ := h.zones.unique (n := inode.index) (m := inode.index) rfl hslot rfl hk h0
      he.symm
    omega

end CutTo

/-! ## Destroying -/

/-- **The file is gone**, and exactly its zones and its inode are given back. -/
structure Volume.Gone (v v' : Volume) (pt : Nat) (inode : Inode) : Prop where
  spares : v.Spares v' inode.index
  get : v'.inodes.get pt = none
  marks : ∀ {z}, v.sb.IsZone z → (zmapBit v.sb v'.disk z = true ↔ zmapBit v.sb v.disk z = true
    ∧ ∀ k p, IsSlot k p → v.zoneIn inode.index k p ≠ z)
  imap : ∀ {m}, v.sb.IsInode m →
    (imapBit v'.disk m = true ↔ imapBit v.disk m = true ∧ m ≠ inode.index)

theorem onTheWay_zero (h : OnTheWay 0 k p) : k = 0 ∧ p = [] := by
  obtain ⟨c, hc, rfl, hp⟩ := h
  obtain rfl : c = 0 := by omega
  exact ⟨rfl, List.suffix_nil.mp hp⟩

/-- **`inode_destroy` on such a file.** -/
theorem Volume.Filled.destroy (h : v.Filled pt inode) :
    ∃ v', inodeDestroy v pt = .ok v' ∧ v.Gone v' pt inode := by
  have hl := h.layout
  obtain ⟨v₁, ht, hcut⟩ := h.truncate (Nat.zero_le inode.size)
  have hsb := hcut.spares.sb
  -- what is left is block 0
  have hfirst : OnTheWay 0 0 [] := ⟨0, Nat.le_refl 0, rfl, List.suffix_refl _⟩
  have hslot : IsSlot 0 [] := (blockSlot (b := 0) (by decide)).1
  have hroot : iZone (readInode v.sb v₁.disk inode.index) 0 = v.zoneIn inode.index 0 [] := by
    have := hcut.kept hslot hfirst
    unfold Volume.zoneIn at this
    rw [hsb] at this
    exact this
  have hmarked : Marked v.sb v.disk (v.zoneIn inode.index 0 []) :=
    h.zones.marked rfl hslot ((h.tree hslot).mpr ⟨0, Nat.zero_le _, rfl, List.suffix_refl _⟩)
  obtain ⟨hz, hzmarks, _⟩ := unmarkZmap_spec hl h.small v₁.disk hmarked.1
  generalize hd₁ : unmarkZmap v.sb v₁.disk (v.zoneIn inode.index 0 []) = d₁ at hz hzmarks
  obtain ⟨htab, _, hother⟩ := writeInode_spec hl d₁ h.index fun _ => 0
  generalize hd₂ : writeInode v.sb d₁ inode.index (fun _ => 0) = d₂ at htab hother
  obtain ⟨hi, himap⟩ := unmarkImap_spec hl d₂ h.index
  refine ⟨releaseInode { v₁ with disk := unmarkImap d₂ inode.index } pt, ?_, ⟨hsb, fun {m} hm hne => ?_,
    fun {z} hz' hno => ?_⟩, Store.free_self, fun {z} hz' => ?_, fun {m} hm => ?_⟩
  · unfold inodeDestroy
    simp only [ht, bind, Except.bind, hcut.get]
    rw [hsb, hroot, hd₁, hd₂]
  · show readInode v.sb (unmarkImap d₂ inode.index) m = _
    rw [hi.readInode hl hm, hother m hm hne, hz.readInode hl hm]
    exact hcut.spares.inodes hm hne
  · show unmarkImap d₂ inode.index z = _
    rw [hi.zone hl hz'.1, htab.zone hz'.1, hz.zone hl hz'.1]
    exact hcut.spares.zones hz' hno
  · show zmapBit v.sb (unmarkImap d₂ inode.index) z = true ↔ _
    rw [hi.zmapBit hl hz', htab.zmapBit hl hz', hzmarks z hz', Bool.and_eq_true, decide_eq_true_eq,
      hcut.marks hz']
    constructor
    · rintro ⟨⟨hm, hlost⟩, hne⟩
      refine ⟨hm, fun k p hk he => ?_⟩
      by_cases hon : OnTheWay 0 k p
      · obtain ⟨rfl, rfl⟩ := onTheWay_zero hon
        exact hne he.symm
      · exact hlost ⟨k, p, hk, he, by rw [Nat.zero_div]; exact hon⟩
    · rintro ⟨hm, hall⟩
      refine ⟨⟨hm, ?_⟩, fun he => hall 0 [] hslot he.symm⟩
      rintro ⟨k, p, hk, he, _⟩
      exact hall k p hk he
  · show imapBit (unmarkImap d₂ inode.index) m = true ↔ _
    rw [himap m, htab.imapBit hl hm, hz.imapBit hl hm, Bool.and_eq_true, decide_eq_true_eq, hcut.imap hm]

/-! ## Exactly what is no longer needed -/

/-- Inodes that share no zone with inode `n` keep their zones and what these hold. -/
def Volume.OthersKept (v v' : Volume) (n : Nat) : Prop :=
  ∀ m, v.sb.IsInode m → m ≠ n → v.SharesNone m n → ∀ k p, IsSlot k p →
    v'.zoneIn m k p = v.zoneIn m k p
      ∧ (v.zoneIn m k p ≠ 0 → v'.disk (v.zoneIn m k p) = v.disk (v.zoneIn m k p))

/-- **Shrinking and destroying give back exactly what is no longer needed**, on a file that maps
its blocks up to the last one and nothing beyond, in zones of its own. -/
theorem shrink_exact (h : v.Filled pt inode) :
    (∀ size, size < inode.size → ∃ v', inodeTruncate v pt size = .ok (0, v')
      ∧ v.CutTo v' pt inode size
      ∧ (∀ b, b < 2 ^ 16 → getBlock v'.sb v'.disk inode.index b
          = if b ≤ size / blockSize then getBlock v.sb v.disk inode.index b else 0)
      ∧ (∀ y, y < size → v'.fileAt inode.index y = v.fileAt inode.index y)
      ∧ v.OthersKept v' inode.index)
    ∧ ∃ v', inodeDestroy v pt = .ok v' ∧ v.Gone v' pt inode ∧ v.OthersKept v' inode.index := by
  refine ⟨fun size hsize => ?_, ?_⟩
  · obtain ⟨v', ht, hcut⟩ := h.truncate (Nat.le_of_lt hsize)
    exact ⟨v', ht, hcut, fun b hb => hcut.getBlock h hb,
      fun y hy => hcut.fileAt h (Nat.le_of_lt hsize) hy,
      fun m hm hne hapart k p hs => hcut.spares.apart hm hne hapart hs⟩
  · obtain ⟨v', hd, hgone⟩ := h.destroy
    exact ⟨v', hd, hgone, fun m hm hne hapart k p hs => hgone.spares.apart hm hne hapart hs⟩

/-- A file of 5000 bytes in the zones 5 and 6. -/
def twoBlocks : Volume where
  sb := volumeOf 4096 1
  disk := fun b =>
    if b = 2 then Bytes.store (fun _ => 0) 1 0 3
    else if b = 3 then Bytes.store (fun _ => 0) 1 0 7
    else if b = 4 then setZone (setZone (setSize (fun _ => 0) 5000) 0 5) 1 6
    else fun _ => 0
  inodes := Store.empty.alloc ⟨1, 0, 0, 5000⟩
  list := [0]

theorem twoBlocks_slots (hs : IsSlot k p) :
    twoBlocks.zoneIn 1 k p = if k = 0 then 5 else if k = 1 then 6 else 0 := by
  have hroot : ∀ k, k ≤ 8 → iZone (readInode twoBlocks.sb twoBlocks.disk 1) k
      = if k = 0 then 5 else if k = 1 then 6 else 0 := by decide
  by_cases hk : k ≤ 1
  · obtain rfl : p = [] := List.eq_nil_of_length_eq_zero (by
      have := hs.2.1
      omega)
    exact hroot k hs.1
  · rw [if_neg (by omega), if_neg (by omega)]
    refine zoneOf_empty ?_ p
    rw [hroot k hs.1, if_neg (by omega), if_neg (by omega)]

theorem twoBlocks_filled : twoBlocks.Filled 0 ⟨1, 0, 0, 5000⟩ where
  layout := volumeOf_layout
  small := by decide
  get := rfl
  index := ⟨by decide, by decide⟩
  size := by decide
  blocks := by decide
  zones := by
    have hfollow : ∀ {s : Nat × Nat} {q : List Nat}, (zoneShape (· = 1)).ok s q →
        Forest.follow (zoneRoot (readInode twoBlocks.sb twoBlocks.disk)) (zoneMem twoBlocks.disk) s q
          = if s.2 = 0 then 5 else if s.2 = 1 then 6 else 0 := by
      rintro ⟨m, k⟩ q ⟨rfl, hq⟩
      rw [follow_zoneRoot]
      exact twoBlocks_slots hq
    refine ⟨fun {s q} hq h0 => ?_, fun {s q t r} hq hr h0 he => ?_⟩
    · rw [hfollow hq] at h0 ⊢
      by_cases h1 : s.2 = 0
      · rw [if_pos h1]
        exact ⟨⟨by decide, by decide⟩, by decide⟩
      · rw [if_neg h1] at h0 ⊢
        by_cases h2 : s.2 = 1
        · rw [if_pos h2]
          exact ⟨⟨by decide, by decide⟩, by decide⟩
        · exact absurd (if_neg h2) h0
    · rw [hfollow hq] at h0 he
      rw [hfollow hr] at he
      obtain ⟨m, k⟩ := s
      obtain ⟨m', k'⟩ := t
      obtain ⟨rfl, hk1, hk2, _⟩ := hq
      obtain ⟨rfl, hr1, hr2, _⟩ := hr
      have hkk : k = k' ∧ k ≤ 1 := by
        split_ifs at h0 he <;> omega
      obtain ⟨rfl, hle⟩ := hkk
      rw [List.eq_nil_of_length_eq_zero (show q.length = 0 by omega),
        List.eq_nil_of_length_eq_zero (show r.length = 0 by omega)]
      exact ⟨rfl, rfl⟩
  tree := fun {k p} hs => by
    rw [show (⟨1, 0, 0, 5000⟩ : Inode).index = 1 from rfl, twoBlocks_slots hs,
      show (⟨1, 0, 0, 5000⟩ : Inode).size / blockSize = 1 from rfl, onTheWay_iff (by decide) hs]
    obtain ⟨_, hlen, _⟩ := hs
    by_cases hk : k ≤ 6
    · obtain rfl : p = [] := List.eq_nil_of_length_eq_zero (by omega)
      rw [show slotBlock k [] = k by rw [slotBlock, if_neg (by omega)]]
      rcases k with _ | _ | k
      · decide
      · decide
      · rw [if_neg (by omega), if_neg (by omega)]
        omega
    · have hge : 7 ≤ slotBlock k p := by
        rcases p with _ | ⟨j, _ | ⟨i, q⟩⟩
        · rw [slotBlock]
          split <;> omega
        · rw [slotBlock]
          split <;> omega
        · rw [slotBlock]
          omega
      rw [if_neg (by omega), if_neg (by omega)]
      omega

/-- Cutting it to five bytes. -/
theorem shrink_exact_two : ∃ v', inodeTruncate twoBlocks 0 5 = .ok (0, v')
    ∧ twoBlocks.CutTo v' 0 ⟨1, 0, 0, 5000⟩ 5 := by
  obtain ⟨v', ht, hcut, _⟩ := (shrink_exact twoBlocks_filled).1 5 (by decide)
  exact ⟨v', ht, hcut⟩

end Cyanurus
