import Cyanurus.Lib.Forest
import Cyanurus.Fs.Layout

/-!
# The zones of the files of a volume

An inode holds nine zone numbers: seven data zones, an indirect zone, and a double
indirect zone. With the words of the indirect zones they form a forest: the slot
`(k, p)` of an inode is reached from `i_zone[k]` by the word indices `p`. `Zones` is
the ownership discipline on it: every zone in a slot is a marked data zone of the
volume, and sits in no other slot of any file.

`extend_zone` fills the slots of one block after another. `Ext` describes an
extension in progress: the inode has slots on top of those it had, some of them
only in the copy that is not written back yet; nothing but indirect zones of this
inode has been written.
-/

namespace Cyanurus

open Forest

/-- The slots of the inodes `A`: under `i_zone[k]` there are `k - 6` levels of indirection. -/
def zoneShape (A : Nat → Prop) : Shape (Nat × Nat) where
  ok := fun s p => A s.1 ∧ s.2 ≤ 8 ∧ p.length ≤ s.2 - 6 ∧ ∀ j ∈ p, j < zonesPerBlock
  up := fun h => ⟨h.1, h.2.1, Nat.le_of_succ_le h.2.2.1,
    fun j hj => h.2.2.2 j (List.mem_cons_of_mem _ hj)⟩

/-- The zones named in the inodes themselves. -/
def zoneRoot (f : Nat → Bytes) (s : Nat × Nat) : Nat := iZone (f s.1) s.2

/-- The zones named in zones. -/
def zoneMem (d : Disk) (z j : Nat) : Nat := zoneWord (d z) j

/-- The zone in slot `(k, p)` of an inode, 0 if there is none. -/
def zoneOf (d : Disk) (ino : Bytes) (k : Nat) (p : List Nat) : Nat :=
  follow (iZone ino) (zoneMem d) k p

/-- A slot of an inode. -/
def IsSlot (k : Nat) (p : List Nat) : Prop :=
  k ≤ 8 ∧ p.length ≤ k - 6 ∧ ∀ j ∈ p, j < zonesPerBlock

/-- A data zone of the volume that is marked in the zone map. -/
def Marked (sb : Superblock) (d : Disk) (z : Nat) : Prop := sb.IsZone z ∧ zmapBit sb d z = true

/-- The zones in the slots of the inodes `A` are data zones of the volume, each in one slot,
whether they are marked or not. -/
def Sited (sb : Superblock) (d : Disk) (A : Nat → Prop) (f : Nat → Bytes) : Prop :=
  Owned (zoneShape A) (zoneRoot f) (zoneMem d) sb.IsZone

/-- **Zone ownership**: the inodes `A`, whose contents are `f`, own the zones in their slots. -/
def Zones (sb : Superblock) (d : Disk) (A : Nat → Prop) (f : Nat → Bytes) : Prop :=
  Owned (zoneShape A) (zoneRoot f) (zoneMem d) (Marked sb d)

variable {sb : Superblock} {d d' : Disk} {A : Nat → Prop} {f : Nat → Bytes} {ino ino' : Bytes}
  {n k z : Nat} {p : List Nat}

theorem follow_zoneRoot (f : Nat → Bytes) (d : Disk) (n k : Nat) : ∀ p : List Nat,
    follow (zoneRoot f) (zoneMem d) (n, k) p = zoneOf d (f n) k p
  | [] => rfl
  | j :: p => by
    have ih := follow_zoneRoot f d n k p
    unfold zoneOf at *
    rw [follow, follow, ih]

variable {j w m l : Nat} {q : List Nat} {g : Nat → Bytes}

/-- Below an indirect zone there are its words. -/
theorem zoneOf_cons (hw : zoneOf d ino k p = w) (hw0 : w ≠ 0) :
    zoneOf d ino k (j :: p) = zoneWord (d w) j := by
  unfold zoneOf at hw ⊢
  rw [follow_cons (by rw [hw]; exact hw0), hw]
  rfl

theorem zoneOf_cons_zero (h : zoneOf d ino k p = 0) : zoneOf d ino k (j :: p) = 0 :=
  follow_cons_zero h

theorem IsSlot.up (h : IsSlot k (j :: p)) : IsSlot k p :=
  ⟨h.1, Nat.le_of_succ_le h.2.1, fun i hi => h.2.2 i (List.mem_cons_of_mem _ hi)⟩

theorem Zones.marked (hz : Zones sb d A f) (hn : A n) (hs : IsSlot k p)
    (h0 : zoneOf d (f n) k p ≠ 0) : Marked sb d (zoneOf d (f n) k p) := by
  rw [← follow_zoneRoot] at h0 ⊢
  exact hz.good ⟨hn, hs⟩ h0

theorem Zones.sited (hz : Zones sb d A f) : Sited sb d A f :=
  hz.congr (fun _ => rfl) fun _ h => h.1

theorem Sited.isZone (hz : Sited sb d A f) (hn : A n) (hs : IsSlot k p)
    (h0 : zoneOf d (f n) k p ≠ 0) : sb.IsZone (zoneOf d (f n) k p) := by
  rw [← follow_zoneRoot] at h0 ⊢
  exact hz.good ⟨hn, hs⟩ h0

/-- A zone sits in one slot of one inode. -/
theorem Sited.unique (hz : Sited sb d A f) (hn : A n) (hs : IsSlot k p)
    (hm : A m) (hq : IsSlot l q) (h0 : zoneOf d (f n) k p ≠ 0)
    (he : zoneOf d (f n) k p = zoneOf d (f m) l q) : n = m ∧ k = l ∧ p = q := by
  rw [← follow_zoneRoot, ← follow_zoneRoot] at he
  rw [← follow_zoneRoot] at h0
  obtain ⟨h1, h2⟩ := hz.inj (k := (n, k)) (l := (m, l)) ⟨hn, hs⟩ ⟨hm, hq⟩ h0 he
  exact ⟨(Prod.mk.inj h1).1, (Prod.mk.inj h1).2, h2⟩

theorem Zones.unique (hz : Zones sb d A f) (hn : A n) (hs : IsSlot k p)
    (hm : A m) (hq : IsSlot l q) (h0 : zoneOf d (f n) k p ≠ 0)
    (he : zoneOf d (f n) k p = zoneOf d (f m) l q) : n = m ∧ k = l ∧ p = q :=
  hz.sited.unique hn hs hm hq h0 he

theorem Superblock.Layout.first_pos (hl : sb.Layout) : 0 < sb.sFirstdatazone := by
  have := hl.table
  unfold Superblock.inodeZoneIndex Superblock.imapZoneIndex at this
  omega

/-- Zones of the volume are below `2 ^ 16`, above the maps and the table, and not 0. -/
theorem Superblock.IsZone.bounds (hl : sb.Layout) (hz : sb.sZones ≤ 2 ^ 16) (h : sb.IsZone z) :
    z < 2 ^ 16 ∧ sb.sFirstdatazone ≤ z ∧ z ≠ 0 := by
  have h1 := hl.table
  obtain ⟨h2, h3⟩ := h
  unfold Superblock.inodeZoneIndex Superblock.imapZoneIndex at h1
  omega

theorem Marked.bounds (hl : sb.Layout) (hz : sb.sZones ≤ 2 ^ 16) (h : Marked sb d z) :
    z < 2 ^ 16 ∧ sb.sFirstdatazone ≤ z ∧ z ≠ 0 := h.1.bounds hl hz

/-- What a slot holds depends on the zones in the slots above it only. -/
theorem zoneOf_congr (hw : ∀ j q, IsSlot k (j :: q) → zoneOf d ino k q ≠ 0 →
    zoneMem d' (zoneOf d ino k q) j = zoneMem d (zoneOf d ino k q) j)
    (hr : ∀ l, l ≤ 8 → iZone ino' l = iZone ino l) :
    ∀ {p : List Nat}, IsSlot k p → zoneOf d' ino' k p = zoneOf d ino k p := by
  intro p
  induction p with
  | nil => intro hs; exact hr k hs.1
  | cons j p ih =>
    intro hs
    have hih := ih hs.up
    unfold zoneOf at hih ⊢
    rw [follow, follow, hih]
    split
    · rfl
    · rename_i h0; exact hw j p hs h0

/-- Ownership where the zones in use are the same and still marked. -/
theorem Zones.transfer_used (hz : Zones sb d A f)
    (hr : ∀ m k, A m → k ≤ 8 → iZone (g m) k = iZone (f m) k)
    (hu : ∀ {m k p}, A m → IsSlot k p → zoneOf d (f m) k p ≠ 0 →
      d' (zoneOf d (f m) k p) = d (zoneOf d (f m) k p) ∧ Marked sb d' (zoneOf d (f m) k p)) :
    (∀ {m k p}, A m → IsSlot k p → zoneOf d' (g m) k p = zoneOf d (f m) k p)
      ∧ Zones sb d' A g := by
  have hslots : ∀ {m k p}, A m → IsSlot k p → zoneOf d' (g m) k p = zoneOf d (f m) k p := by
    intro m k p ha hs
    refine zoneOf_congr (fun j q hq h0 => ?_) (fun l hl => hr m l ha hl) hs
    unfold zoneMem
    rw [(hu ha hq.up h0).1]
  have hfollow : ∀ {s : Nat × Nat} {q : List Nat}, (zoneShape A).ok s q →
      follow (zoneRoot g) (zoneMem d') s q = follow (zoneRoot f) (zoneMem d) s q := by
    intro s q hq
    rw [follow_zoneRoot, follow_zoneRoot]
    exact hslots hq.1 hq.2
  refine ⟨hslots, hz.sub (fun hq => Or.inr (hfollow hq)) fun {s q} hq h0 => ?_⟩
  rw [hfollow hq, follow_zoneRoot] at h0 ⊢
  exact (hu hq.1 hq.2 h0).2

theorem Zones.transfer (hz : Zones sb d A f)
    (hr : ∀ m k, A m → k ≤ 8 → iZone (g m) k = iZone (f m) k)
    (hw : ∀ z, Marked sb d z → d' z = d z) (hm : ∀ z, Marked sb d z → Marked sb d' z) :
    (∀ {m k p}, A m → IsSlot k p → zoneOf d' (g m) k p = zoneOf d (f m) k p)
      ∧ Zones sb d' A g :=
  hz.transfer_used hr fun ha hs h0 => ⟨hw _ (hz.marked ha hs h0), hm _ (hz.marked ha hs h0)⟩

theorem zoneOf_empty (h : iZone ino k = 0) : ∀ p : List Nat, zoneOf d ino k p = 0
  | [] => h
  | _ :: p => zoneOf_cons_zero (zoneOf_empty h p)

/-- Below an empty slot there is nothing. -/
theorem zoneOf_below_zero {q : List Nat} (h : zoneOf d ino k p = 0) (hpq : p <:+ q) :
    zoneOf d ino k q = 0 := by
  obtain ⟨t, rfl⟩ := hpq
  induction t with
  | nil => exact h
  | cons j t ih => exact zoneOf_cons_zero ih

/-- The slots under an entry of `i_zone` depend on that entry and on the zones. -/
theorem zoneOf_root (h : iZone ino' k = iZone ino k) :
    ∀ p : List Nat, zoneOf d ino' k p = zoneOf d ino k p
  | [] => h
  | j :: p => by
    have ih := zoneOf_root h p
    unfold zoneOf at ih ⊢
    rw [follow, follow, ih]

/-- One more inode, without zones. -/
theorem Zones.insert (hz : Zones sb d A f) (n : Nat) (h0 : ∀ k, k ≤ 8 → iZone ino k = 0) :
    Zones sb d (fun m => A m ∨ m = n) (Function.update f n ino) := by
  have hself : ∀ {k p}, IsSlot k p →
      follow (zoneRoot (Function.update f n ino)) (zoneMem d) (n, k) p = 0 := by
    intro k p hs
    rw [follow_zoneRoot, Function.update_self]
    exact zoneOf_empty (h0 k hs.1) p
  have hother : ∀ {s : Nat × Nat} {p : List Nat},
      (zoneShape fun m => A m ∨ m = n).ok s p →
      follow (zoneRoot (Function.update f n ino)) (zoneMem d) s p ≠ 0 →
      (zoneShape A).ok s p ∧ follow (zoneRoot (Function.update f n ino)) (zoneMem d) s p
        = follow (zoneRoot f) (zoneMem d) s p := by
    intro s p hs hne
    obtain ⟨m, k⟩ := s
    by_cases hm : m = n
    · subst hm
      exact absurd (hself hs.2) hne
    · refine ⟨⟨hs.1.resolve_right hm, hs.2⟩, ?_⟩
      rw [follow_zoneRoot, follow_zoneRoot, Function.update_of_ne hm]
  refine ⟨fun hs hne => ?_, fun hs ht hne heq => ?_⟩
  · obtain ⟨h1, h2⟩ := hother hs hne
    rw [h2] at hne ⊢
    exact hz.good h1 hne
  · obtain ⟨h1, h2⟩ := hother hs hne
    obtain ⟨h3, h4⟩ := hother ht (by rw [← heq]; exact hne)
    rw [h2] at hne heq
    rw [h4] at heq
    exact hz.inj h1 h3 hne heq

/-- Fewer inodes. -/
theorem Zones.restrict {B : Nat → Prop} (hz : Zones sb d A f) (hB : ∀ m, B m → A m) :
    Zones sb d B f :=
  ⟨fun hs h0 => hz.good ⟨hB _ hs.1, hs.2⟩ h0,
    fun hs ht h0 he => hz.inj ⟨hB _ hs.1, hs.2⟩ ⟨hB _ ht.1, ht.2⟩ h0 he⟩

/-! ## An extension in progress -/

/--
The inode `n` is being extended. `d₀` is the disk the extension started from, where
the inode's contents were `f n`; `ino` is the copy it works on.
-/
structure Ext (sb : Superblock) (A : Nat → Prop) (f : Nat → Bytes) (n : Nat) (d₀ d : Disk)
    (ino : Bytes) : Prop where
  /-- Ownership holds with the new slots counted in. -/
  zones : Zones sb d A (Function.update f n ino)
  /-- Slots that were filled hold what they held. -/
  mono : ∀ {k p}, IsSlot k p → zoneOf d₀ (f n) k p ≠ 0 → zoneOf d ino k p = zoneOf d₀ (f n) k p
  /-- The slots of other inodes are untouched. -/
  others : ∀ {m k p}, A m → m ≠ n → IsSlot k p → zoneOf d (f m) k p = zoneOf d₀ (f m) k p
  /-- Of the zones, only indirect zones of this inode are written. -/
  same : ∀ {z}, sb.sFirstdatazone ≤ z →
    (∀ k p, IsSlot k p → p.length < k - 6 → zoneOf d ino k p ≠ z) → d z = d₀ z
  /-- Outside the zones, only the zone map is written. -/
  rest : ∀ b, b < sb.sFirstdatazone → b < sb.zmapStart ∨ sb.inodeZoneIndex ≤ b → d b = d₀ b
  /-- No mark is lost. -/
  marks : ∀ {z}, sb.IsZone z → zmapBit sb d₀ z = true → zmapBit sb d z = true
  /-- The fields before the zones are untouched. -/
  head : ∀ x, x < 24 → ino x = f n x

theorem Ext.refl (hz : Zones sb d A f) (n : Nat) : Ext sb A f n d d (f n) where
  zones := by rw [Function.update_eq_self]; exact hz
  mono := fun _ _ => rfl
  others := fun _ _ _ => rfl
  same := fun _ _ => rfl
  rest := fun _ _ _ => rfl
  marks := fun _ h => h
  head := fun _ _ => rfl

variable {d₀ : Disk}

/-- The slots of the copy in work. -/
theorem Zones.marked_self (hz : Zones sb d A (Function.update f n ino)) (hn : A n) (hs : IsSlot k p)
    (h0 : zoneOf d ino k p ≠ 0) : Marked sb d (zoneOf d ino k p) := by
  have h := hz.marked hn hs
  rw [Function.update_self] at h
  exact h h0

/-- Paths of the copy in work, as paths of the forest. -/
theorem follow_update (f : Nat → Bytes) (d : Disk) (ino : Bytes) (n k : Nat) (p : List Nat) :
    follow (zoneRoot (Function.update f n ino)) (zoneMem d) (n, k) p = zoneOf d ino k p := by
  rw [follow_zoneRoot, Function.update_self]

theorem follow_update_ne (f : Nat → Bytes) (d : Disk) (ino : Bytes) (h : m ≠ n)
    (k : Nat) (p : List Nat) :
    follow (zoneRoot (Function.update f n ino)) (zoneMem d) (m, k) p = zoneOf d (f m) k p := by
  rw [follow_zoneRoot, Function.update_of_ne h]

/-- The slot `(k, p)` of the copy in work is assigned to: of the zones only indirect zones of
the inode are written, and outside them only the zone map. -/
structure Assigned (sb : Superblock) (A : Nat → Prop) (f : Nat → Bytes) (n k : Nat) (p : List Nat)
    (d : Disk) (ino : Bytes) (d' : Disk) (ino' : Bytes) : Prop where
  rest : ∀ b, b < sb.sFirstdatazone → b < sb.zmapStart ∨ sb.inodeZoneIndex ≤ b → d' b = d b
  same : ∀ z, sb.sFirstdatazone ≤ z →
    (∀ k p, IsSlot k p → p.length < k - 6 → zoneOf d ino k p ≠ z) → d' z = d z
  elsewhere : Elsewhere (zoneShape A) (zoneRoot (Function.update f n ino))
    (zoneRoot (Function.update f n ino')) (zoneMem d) (zoneMem d') (n, k) p
  head : ∀ x, x < 24 → ino' x = ino x

/-- Slots of the inode that are not below the one assigned to. -/
theorem Assigned.spares (ha : Assigned sb A f n k p d ino d' ino') (hn : A n) (hq : IsSlot l q)
    (hne : l = k → ¬ p <:+ q) : zoneOf d' ino' l q = zoneOf d ino l q := by
  have h := ha.elsewhere.follow_eq (l := (n, l)) (q := q) ⟨hn, hq⟩ fun h => hne (Prod.mk.inj h).2
  rw [follow_update, follow_update] at h
  exact h

/-- Slots of other inodes. -/
theorem Assigned.others (ha : Assigned sb A f n k p d ino d' ino') (hm : A m) (hne : m ≠ n)
    (hq : IsSlot l q) : zoneOf d' (f m) l q = zoneOf d (f m) l q := by
  have h := ha.elsewhere.follow_eq (l := (m, l)) (q := q) ⟨hm, hq⟩
    fun h => absurd (Prod.mk.inj h).1 hne
  rw [follow_update_ne _ _ _ hne, follow_update_ne _ _ _ hne] at h
  exact h

/-- **A slot is filled with a fresh zone.** -/
theorem Ext.graft (he : Ext sb A f n d₀ d ino) (hpos : 0 < sb.sFirstdatazone) (hn : A n)
    (habs : zoneOf d ino k p = 0) (hzone : sb.IsZone z) (hun : zmapBit sb d z = false)
    (hmarks : ∀ z', sb.IsZone z' → zmapBit sb d' z' = (zmapBit sb d z' || decide (z' = z)))
    (ha : Assigned sb A f n k p d ino d' ino') (hnew : zoneOf d' ino' k p = z)
    (hleaf : p.length < k - 6 → ∀ j, j < zonesPerBlock → zoneWord (d' z) j = 0) :
    Ext sb A f n d₀ d' ino'
      ∧ ∀ l q, IsSlot l q → (l = k → p ≠ q) → zoneOf d' ino' l q = zoneOf d ino l q := by
  have hgraft : ∀ {s : Nat × Nat} {q : List Nat}, (zoneShape A).ok s q → (s = (n, k) → p ≠ q) →
      follow (zoneRoot (Function.update f n ino')) (zoneMem d') s q
        = follow (zoneRoot (Function.update f n ino)) (zoneMem d) s q :=
    follow_graft ha.elsewhere (by rw [follow_update]; exact hnew) (by rw [follow_update]; exact habs)
      (fun j hj => hleaf (Nat.lt_of_succ_le hj.2.2.1) j (hj.2.2.2 j (List.mem_cons_self ..)))
  have hslots : ∀ l q, IsSlot l q → (l = k → p ≠ q) → zoneOf d' ino' l q = zoneOf d ino l q := by
    intro l q hq hne
    have h := hgraft (s := (n, l)) (q := q) ⟨hn, hq⟩ fun h => hne (Prod.mk.inj h).2
    rw [follow_update, follow_update] at h
    exact h
  -- a slot that was filled is not the one filled now
  have hfilled : ∀ l q, IsSlot l q → zoneOf d ino l q ≠ 0 →
      zoneOf d' ino' l q = zoneOf d ino l q := by
    intro l q hq h0
    refine hslots l q hq fun hlk hpq => ?_
    rw [hlk, ← hpq] at h0
    exact h0 habs
  refine ⟨⟨?_, fun hq h0 => ?_, fun {m l q} hm hne hq => ?_, fun {z'} hz' hidx => ?_,
    fun b hb hb' => ?_, fun {z'} hz' h => ?_, fun x hx => ?_⟩, hslots⟩
  · refine he.zones.graft (z := z) (by rw [follow_update]; exact hnew) hgraft ?_ ?_ ?_
    · intro k' q hq h0 heq
      have := (he.zones.good hq h0).2
      rw [heq, hun] at this
      cases this
    · exact ⟨hzone, by rw [hmarks z hzone]; simp⟩
    · intro x hx
      exact ⟨hx.1, by rw [hmarks x hx.1, hx.2]; rfl⟩
  · have hm := he.mono hq h0
    rw [hfilled _ _ hq (by rw [hm]; exact h0)]
    exact hm
  · rw [ha.others hm hne hq]
    exact he.others hm hne hq
  · have hold : ∀ l q, IsSlot l q → q.length < l - 6 → zoneOf d ino l q ≠ z' := by
      intro l q hq hlt heq
      have h0 : zoneOf d ino l q ≠ 0 := by omega
      exact hidx l q hq hlt (by rw [hfilled l q hq h0]; exact heq)
    rw [ha.same z' hz' hold]
    exact he.same hz' hold
  · rw [ha.rest b hb hb']; exact he.rest b hb hb'
  · rw [hmarks z' hz', he.marks hz' h]; rfl
  · rw [ha.head x hx]; exact he.head x hx

/-- Changes to the zone map that keep the marks of all zones. -/
theorem Ext.zmap (he : Ext sb A f n d₀ d ino) (ino' : Bytes) (hl : sb.Layout) (hn : A n)
    (hd : ZmapOnly sb d d') (hm : ∀ z, sb.IsZone z → zmapBit sb d' z = zmapBit sb d z)
    (hi : ∀ l, l ≤ 8 → iZone ino' l = iZone ino l) (hh : ∀ x, x < 24 → ino' x = ino x) :
    Ext sb A f n d₀ d' ino' ∧ ∀ l q, IsSlot l q → zoneOf d' ino' l q = zoneOf d ino l q := by
  have hword : ∀ z, Marked sb d z → d' z = d z := fun z hz => hd.zone hl hz.1.1
  have hslots : ∀ l q, IsSlot l q → zoneOf d' ino' l q = zoneOf d ino l q := by
    intro l q hq
    refine zoneOf_congr (fun j r hr h0 => ?_) hi hq
    unfold zoneMem
    rw [hword _ (he.zones.marked_self hn hr.up h0)]
  have hothers : ∀ {m l q}, A m → m ≠ n → IsSlot l q → zoneOf d' (f m) l q = zoneOf d (f m) l q := by
    intro m l q hm' hne hq
    refine zoneOf_congr (fun j r hr h0 => ?_) (fun _ _ => rfl) hq
    have h := he.zones.marked hm' hr.up
    rw [Function.update_of_ne hne] at h
    unfold zoneMem
    rw [hword _ (h h0)]
  refine ⟨⟨?_, fun hq h0 => ?_, fun hm' hne hq => ?_, fun {z'} hz' hidx => ?_, fun b hb hb' => ?_,
    fun {z'} hz' h => ?_, fun x hx => ?_⟩, hslots⟩
  · refine he.zones.congr (fun {s q} hq => ?_) fun x hx => ⟨hx.1, by rw [hm x hx.1]; exact hx.2⟩
    obtain ⟨m, l⟩ := s
    by_cases hmn : m = n
    · subst hmn
      rw [follow_update, follow_update]
      exact hslots l q hq.2
    · rw [follow_update_ne _ _ _ hmn, follow_update_ne _ _ _ hmn]
      exact hothers hq.1 hmn hq.2
  · rw [hslots _ _ hq]; exact he.mono hq h0
  · rw [hothers hm' hne hq]; exact he.others hm' hne hq
  · rw [hd.zone hl hz']
    exact he.same hz' fun l q hq hlt => by rw [← hslots l q hq]; exact hidx l q hq hlt
  · rw [hd b hb']; exact he.rest b hb hb'
  · rw [hm z' hz']; exact he.marks hz' h
  · rw [hh x hx]; exact he.head x hx

/-! ## Filling a slot -/

/-- The unmarked zones in the order in which `mark_zmap` hands them out. -/
def freeZones (sb : Superblock) (d : Disk) : List Nat :=
  (List.range' sb.sFirstdatazone (sb.sZones - sb.sFirstdatazone - 1)).filter
    fun z => !zmapBit sb d z

theorem mem_freeZones : z ∈ freeZones sb d ↔
    sb.sFirstdatazone ≤ z ∧ z + 1 < sb.sZones ∧ zmapBit sb d z = false := by
  unfold freeZones
  rw [List.mem_filter, List.mem_range'_1, Bool.not_eq_true']
  refine ⟨fun h => ⟨h.1.1, by omega, h.2⟩, fun h => ⟨⟨h.1, by omega⟩, h.2.2⟩⟩

theorem freeZones_congr (h : ∀ z, sb.IsZone z → zmapBit sb d' z = zmapBit sb d z) :
    freeZones sb d' = freeZones sb d := by
  refine List.filter_congr fun z hz => ?_
  have := List.mem_range'_1.mp hz
  rw [h z ⟨by omega, by omega⟩]

/-- Marking the first free zone takes it off the list. -/
theorem freeZones_cons (hzone : sb.IsZone z) (hlast : z + 1 < sb.sZones)
    (hun : zmapBit sb d z = false)
    (hbelow : ∀ z', sb.IsZone z' → z' < z → zmapBit sb d z' = true)
    (hmarks : ∀ z', sb.IsZone z' → zmapBit sb d' z' = (zmapBit sb d z' || decide (z' = z))) :
    freeZones sb d = z :: freeZones sb d' := by
  obtain ⟨h1, h2⟩ := hzone
  have hrange : List.range' sb.sFirstdatazone (sb.sZones - sb.sFirstdatazone - 1)
      = List.range' sb.sFirstdatazone (z - sb.sFirstdatazone)
        ++ z :: List.range' (z + 1) (sb.sZones - z - 2) := by
    have e1 := List.range'_append_1 (s := sb.sFirstdatazone) (m := z - sb.sFirstdatazone)
      (n := sb.sZones - z - 2 + 1)
    rw [show sb.sFirstdatazone + (z - sb.sFirstdatazone) = z by omega, List.range'_succ,
      show z - sb.sFirstdatazone + (sb.sZones - z - 2 + 1)
        = sb.sZones - sb.sFirstdatazone - 1 by omega] at e1
    exact e1.symm
  have hlow : ∀ e : Disk, (∀ z', sb.IsZone z' → z' < z → zmapBit sb e z' = true) →
      (List.range' sb.sFirstdatazone (z - sb.sFirstdatazone)).filter
        (fun z => !zmapBit sb e z) = [] := by
    intro e he
    refine List.filter_eq_nil_iff.mpr fun z' hz' => ?_
    have := List.mem_range'_1.mp hz'
    rw [he z' ⟨by omega, by omega⟩ (by omega)]
    simp
  have hhigh : (List.range' (z + 1) (sb.sZones - z - 2)).filter (fun z => !zmapBit sb d' z)
      = (List.range' (z + 1) (sb.sZones - z - 2)).filter (fun z => !zmapBit sb d z) := by
    refine List.filter_congr fun z' hz' => ?_
    have := List.mem_range'_1.mp hz'
    rw [hmarks z' ⟨by omega, by omega⟩, show decide (z' = z) = false from decide_eq_false (by omega),
      Bool.or_false]
  unfold freeZones
  rw [hrange, List.filter_append, List.filter_append, hlow d hbelow,
    hlow d' fun z' hz' hlt => by rw [hmarks z' hz', hbelow z' hz' hlt]; rfl,
    List.nil_append, List.nil_append, List.filter_cons, List.filter_cons, hun,
    hmarks z ⟨h1, h2⟩, hhigh]
  simp

theorem freeZones_nil (h : ∀ z, sb.IsZone z → z + 1 < sb.sZones → zmapBit sb d z = true) :
    freeZones sb d = [] := by
  refine List.eq_nil_iff_forall_not_mem.mpr fun z hz => ?_
  obtain ⟨h1, h2, h3⟩ := mem_freeZones.mp hz
  rw [h z ⟨h1, by omega⟩ h2] at h3
  cases h3

/-- What filling the slot `(k, p)` comes to; `r` is the zone in it afterwards. -/
structure Filled (sb : Superblock) (A : Nat → Prop) (f : Nat → Bytes) (n : Nat) (d₀ d : Disk)
    (ino : Bytes) (k : Nat) (p : List Nat) (d' : Disk) (ino' : Bytes) (r : Nat) : Prop where
  ext : Ext sb A f n d₀ d' ino'
  val : zoneOf d' ino' k p = r
  slots : ∀ l q, IsSlot l q → (l = k → p ≠ q) → zoneOf d' ino' l q = zoneOf d ino l q
  /-- A slot that is filled is left alone. -/
  kept : zoneOf d ino k p ≠ 0 → r = zoneOf d ino k p ∧ d' = d
  /-- An empty slot gets the first free zone. -/
  took : zoneOf d ino k p = 0 → r ≠ 0 → freeZones sb d = r :: freeZones sb d'
  /-- Without a zone, nothing is marked. -/
  fail : r = 0 → freeZones sb d' = freeZones sb d
  /-- On a map with bit 0 set there is a zone unless none is free. -/
  full : bitAt d sb.zmapStart 0 = true →
    bitAt d' sb.zmapStart 0 = true ∧ (r = 0 → freeZones sb d = [])
  /-- No other zone is marked. -/
  mark : ∀ {z}, sb.IsZone z → zmapBit sb d' z = true → zmapBit sb d z = true ∨ z = r

/-- A zone that becomes an indirect zone has to be clear. -/
def ClearFirst (sb : Superblock) (d : Disk) (k : Nat) (p : List Nat) : Prop :=
  p.length < k - 6 → ∀ z, (freeZones sb d).head? = some z → ∀ j, j < zonesPerBlock →
    zoneWord (d z) j = 0

/-- A zone number of the inode is assigned to, and marks change. -/
theorem Assigned.root (hzs : Zones sb d A (Function.update f n ino)) (hl : sb.Layout)
    (hd : ZmapOnly sb d d') (v : Nat) : Assigned sb A f n k [] d ino d' (setZone ino k v) := by
  refine ⟨fun b _ hb => hd b hb, fun z hz _ => hd.zone hl hz, ⟨fun s _ hne => ?_,
    fun s j q hq _ h0 => ?_⟩, fun x hx => setZone_head ino k v hx⟩
  · obtain ⟨m, l⟩ := s
    unfold zoneRoot
    by_cases hmn : m = n
    · subst hmn
      have hlk : l ≠ k := fun h => hne (by rw [h]) rfl
      simp only [Function.update_self]
      exact iZone_setZone_ne _ _ hlk
    · simp only [Function.update_of_ne hmn]
  · have := hzs.good ((zoneShape A).up hq) h0
    unfold zoneMem at *
    rw [hd.zone hl this.1.1]

theorem fillRoot_filled (hl : sb.Layout) (hz : sb.sZones ≤ 2 ^ 16) (hn : A n)
    (he : Ext sb A f n d₀ d ino) (hk : k ≤ 8)
    (hc : zoneOf d ino k [] = 0 → ClearFirst sb d k []) :
    Filled sb A f n d₀ d ino k [] (fillRoot sb d ino k).1 (fillRoot sb d ino k).2
      (iZone (fillRoot sb d ino k).2 k) := by
  unfold fillRoot
  by_cases h0 : iZone ino k = 0
  · rw [if_pos h0]
    rcases markZmap_spec hl hz d with ⟨d', hm, hd, hb, hfull⟩ |
      ⟨z, d', hm, hd, hzone, hlast, hz0, hun, hbelow, hmarks, hbit⟩
    · rw [hm]
      have hsame : ∀ l, l ≤ 8 → iZone (setZone ino k 0) l = iZone ino l := by
        intro l _
        by_cases hlk : l = k
        · rw [hlk, iZone_setZone_self, h0, Nat.zero_mod]
        · rw [iZone_setZone_ne _ _ hlk]
      obtain ⟨hext, hslots⟩ := he.zmap (setZone ino k 0) hl hn hd hb hsame fun x hx => setZone_head ino k 0 hx
      have hval : iZone (setZone ino k 0) k = 0 := by rw [hsame k hk, h0]
      refine ⟨hext, rfl, fun l q hq _ => hslots l q hq, fun h => absurd h0 h, fun _ h => ?_,
        fun _ => freeZones_congr hb, fun hb0 => ?_, fun hz h => Or.inl (by rw [← hb _ hz]; exact h)⟩
      · exact absurd hval h
      · obtain ⟨rfl, hall⟩ := hfull hb0
        exact ⟨hb0, fun _ => freeZones_nil hall⟩
    · rw [hm]
      have hzlt : z < 2 ^ 32 := by
        omega
      have hval : iZone (setZone ino k z) k = z := by
        rw [iZone_setZone_self, Nat.mod_eq_of_lt hzlt]
      have hfree := freeZones_cons hzone hlast hun hbelow hmarks
      obtain ⟨hext, hslots⟩ := he.graft (k := k) (p := []) hl.first_pos hn h0 hzone hun hmarks
        (.root he.zones hl hd z) hval fun hlt j hj => by
          rw [hd.zone hl hzone.1]
          exact hc h0 hlt z (by rw [hfree]; rfl) j hj
      refine ⟨hext, rfl, hslots, fun h => absurd h0 h, fun _ _ => ?_, fun h => ?_, fun hb0 => ?_,
        fun hz' h => ?_⟩
      · rw [hval]; exact hfree
      · rw [hval] at h
        exact absurd h hz0
      · refine ⟨by rw [hbit]; exact hb0, fun h => ?_⟩
        rw [hval] at h
        exact absurd h hz0
      · rw [hmarks _ hz', Bool.or_eq_true, decide_eq_true_eq] at h
        rw [hval]
        exact h
  · rw [if_neg h0]
    exact ⟨he, rfl, fun l q hq _ => rfl, fun _ => ⟨rfl, rfl⟩, fun h => absurd h h0,
      fun h => absurd h h0, fun hb0 => ⟨hb0, fun h => absurd h h0⟩, fun _ h => Or.inl h⟩

/-- Writing word `j` of an indirect zone leaves its other words alone. -/
theorem zoneWord_store (zones : Bytes) (j i v : Nat) :
    zoneWord (zones.store 4 (4 * j) v) i = if i = j then v % 2 ^ 32 else zoneWord zones i := by
  split
  · rename_i h
    rw [h]
    exact Bytes.load_store_self zones 4 (4 * j) v
  · exact Bytes.load_store_apart zones v (by unfold Bytes.Apart; omega)

/-- Writing a word of an indirect zone changes one cell of the forest. -/
theorem elsewhere_word (hzs : Zones sb d A (Function.update f n ino)) (hn : A n) {v : Nat}
    (hs : IsSlot k (j :: q)) (hw : zoneOf d ino k q = w)
    (hsame : ∀ z, sb.sFirstdatazone ≤ z → z ≠ w → d' z = d z)
    (hword : d' w = (d w).store 4 (4 * j) v) :
    Elsewhere (zoneShape A) (zoneRoot (Function.update f n ino))
      (zoneRoot (Function.update f n ino)) (zoneMem d) (zoneMem d') (n, k) (j :: q) := by
  refine ⟨fun _ _ _ => rfl, fun s i r hr hne h0 => ?_⟩
  obtain ⟨m, l⟩ := s
  have hgood := hzs.good ((zoneShape A).up hr) h0
  by_cases hwz : follow (zoneRoot (Function.update f n ino)) (zoneMem d) (m, l) r = w
  · -- the parent is the zone written, so it is the same slot
    have heq : follow (zoneRoot (Function.update f n ino)) (zoneMem d) (n, k) q = w := by
      rw [follow_update]; exact hw
    obtain ⟨hk, hq⟩ := hzs.inj (k := (m, l)) (l := (n, k)) ((zoneShape A).up hr) ⟨hn, hs.up⟩ h0
      (by rw [hwz, heq])
    have hij : i ≠ j := fun h => hne hk (by rw [h, hq])
    rw [hwz]
    unfold zoneMem
    rw [hword, zoneWord_store, if_neg hij]
  · unfold zoneMem at *
    rw [hsame _ hgood.1.1 hwz]

/-- A word of an indirect zone is assigned to, after marks have changed. -/
theorem Assigned.word {d1 : Disk} (hzs : Zones sb d A (Function.update f n ino)) (hl : sb.Layout)
    (hn : A n) (hs : IsSlot k (j :: q)) (hw : zoneOf d ino k q = w) (hw0 : w ≠ 0)
    (hfirst : sb.sFirstdatazone ≤ w) (hd : ZmapOnly sb d d1) (v : Nat) :
    Assigned sb A f n k (j :: q) d ino (Function.update d1 w ((d w).store 4 (4 * j) v)) ino
      ∧ zoneOf (Function.update d1 w ((d w).store 4 (4 * j) v)) ino k (j :: q) = v % 2 ^ 32 := by
  have hself : Function.update d1 w ((d w).store 4 (4 * j) v) w = (d w).store 4 (4 * j) v :=
    Function.update_self ..
  have hother : ∀ z, sb.sFirstdatazone ≤ z → z ≠ w →
      Function.update d1 w ((d w).store 4 (4 * j) v) z = d z := by
    intro z hz hne
    rw [Function.update_of_ne hne, hd.zone hl hz]
  have hlow := update_zonesOnly hfirst d1 ((d w).store 4 (4 * j) v)
  generalize Function.update d1 w ((d w).store 4 (4 * j) v) = d' at *
  have hlen := hs.2.1
  rw [List.length_cons] at hlen
  have ha : Assigned sb A f n k (j :: q) d ino d' ino :=
    ⟨fun b hb hb' => by rw [hlow b hb, hd b hb'],
      fun z hz hidx => hother z hz fun h => hidx k q hs.up (by omega) (by rw [h]; exact hw),
      elsewhere_word hzs hn hs hw hother hself, fun _ _ => rfl⟩
  have hwd : zoneOf d' ino k q = w := by
    rw [ha.spares hn hs.up fun _ hsuf => by
      have := hsuf.length_le
      rw [List.length_cons] at this
      omega]
    exact hw
  exact ⟨ha, by rw [zoneOf_cons hwd hw0, hself, zoneWord_store, if_pos rfl]⟩

theorem fillWord_filled (hl : sb.Layout) (hz : sb.sZones ≤ 2 ^ 16) (hn : A n)
    (he : Ext sb A f n d₀ d ino) (hs : IsSlot k (j :: q))
    (hw : zoneOf d ino k q = w) (hw0 : w ≠ 0)
    (hc : zoneOf d ino k (j :: q) = 0 → ClearFirst sb d k (j :: q)) :
    Filled sb A f n d₀ d ino k (j :: q) (fillWord sb d w j).2 ino (fillWord sb d w j).1 := by
  have hwm := he.zones.marked_self hn hs.up (by rw [hw]; exact hw0)
  rw [hw] at hwm
  obtain ⟨hwlt, hwfirst, _⟩ := hwm.bounds hl hz
  unfold fillWord
  rw [blockRead_zone hwlt]
  by_cases h0 : zoneWord (d w) j = 0
  · rw [if_pos h0]
    have habs : zoneOf d ino k (j :: q) = 0 := by rw [zoneOf_cons hw hw0, h0]
    rcases markZmap_spec hl hz d with ⟨d1, hm, hd, hb, hfull⟩ |
      ⟨z, d1, hm, hd, hzone, hlast, hz0, hun, hbelow, hmarks, hbit⟩
    · rw [hm]
      simp only [if_pos]
      obtain ⟨hext, hslots⟩ := he.zmap ino hl hn hd hb (fun _ _ => rfl) fun _ _ => rfl
      refine ⟨hext, ?_, fun l r hr _ => hslots l r hr, fun h => absurd habs h, fun _ h => absurd rfl h,
        fun _ => freeZones_congr hb, fun hb0 => ?_, fun hz h => Or.inl (by rw [← hb _ hz]; exact h)⟩
      · rw [hslots _ _ hs, habs]
      · obtain ⟨rfl, hall⟩ := hfull hb0
        exact ⟨hb0, fun _ => freeZones_nil hall⟩
    · rw [hm]
      simp only [if_neg hz0]
      have hzlt : z % 2 ^ 32 = z := Nat.mod_eq_of_lt (by
        omega)
      have hzw : z ≠ w := by
        intro h
        have := hwm.2
        rw [← h, hun] at this
        cases this
      rw [blockWrite_zone hwlt]
      obtain ⟨hassign, hnew⟩ := Assigned.word he.zones hl hn hs hw hw0 hwfirst hd z
      rw [hzlt] at hnew
      have hzonly := update_zonesOnly hwfirst d1 ((d w).store 4 (4 * j) z)
      have hclear : Function.update d1 w ((d w).store 4 (4 * j) z) z = d z := by
        rw [Function.update_of_ne hzw, hd.zone hl hzone.1]
      generalize Function.update d1 w ((d w).store 4 (4 * j) z) = d' at *
      have hmarks' : ∀ z', sb.IsZone z' → zmapBit sb d' z' = (zmapBit sb d z' || decide (z' = z)) := by
        intro z' hz'
        rw [hzonly.zmapBit hl hz', hmarks z' hz']
      have hfree := freeZones_cons hzone hlast hun hbelow hmarks'
      obtain ⟨hext, hslots⟩ := he.graft hl.first_pos hn habs hzone hun hmarks' hassign hnew
        fun hlt i hi => by
          rw [hclear]
          exact hc habs hlt z (by rw [hfree]; rfl) i hi
      refine ⟨hext, hnew, hslots, fun h => absurd habs h, fun _ _ => hfree, fun h => absurd h hz0,
        fun hb0 => ⟨?_, fun h => absurd h hz0⟩, fun hz' h => ?_⟩
      · rw [hzonly.zmapBit0 hl, hbit]; exact hb0
      · rw [hmarks' _ hz', Bool.or_eq_true, decide_eq_true_eq] at h
        exact h
  · rw [if_neg h0]
    have hval : zoneOf d ino k (j :: q) = zoneWord (d w) j := zoneOf_cons hw hw0
    exact ⟨he, hval, fun _ _ _ _ => rfl, fun _ => ⟨hval.symm, rfl⟩, fun h => absurd (hval ▸ h) h0,
      fun h => absurd h h0, fun hb0 => ⟨hb0, fun h => absurd h h0⟩, fun _ h => Or.inl h⟩

end Cyanurus
