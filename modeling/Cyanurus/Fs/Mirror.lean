import Cyanurus.Fs.Frame
import Cyanurus.Fs.Append

/-!
# Inodes in memory and on disk

The mode, the size and the number of links of a file are kept twice, in the object that
`inode_get` and `inode_create` return and in the inode on disk. `inode_truncate` reads the
inode, works on a local copy and writes it back only if it succeeds; `inode_set` writes the
fields of the object over those on disk.

`Volume.Mirrors` says that the two agree. Every operation keeps it, also where it gives up
halfway, as long as no indirect zone is made of a zone that still holds words. Otherwise a
word can name a block of the inode table, and data written to the file goes there.
-/

namespace Cyanurus

open Lts

variable {u v w : Volume} {p n : Nat} {inode : Inode}

/-- The fields of the object are those of the inode on disk. -/
structure InodeMirrors (v : Volume) (inode : Inode) : Prop where
  mode : inode.mode = iMode (readInode v.sb v.disk inode.index)
  size : inode.size = iSize (readInode v.sb v.disk inode.index)
  nlinks : inode.nlinks = iNlinks (readInode v.sb v.disk inode.index)

/-- There is one object for an inode in memory, and it has the fields that are on disk. -/
structure Volume.Mirrors (v : Volume) : Prop where
  once : ∀ {p q i j}, v.inodes.get p = some i → v.inodes.get q = some j → i.index = j.index → p = q
  same : ∀ {p i}, v.inodes.get p = some i → InodeMirrors v i

/-- The volume is in order, and its inodes in memory mirror the disk. -/
structure Volume.Synced (v : Volume) : Prop where
  inv : v.Inv
  same : ∀ {p i}, v.inodes.get p = some i → InodeMirrors v i

theorem Volume.Synced.mirrors (hv : v.Synced) : v.Mirrors := ⟨hv.inv.mem.inj, hv.same⟩

/-! ## Operations that change a size -/

/-- The same inode in memory, up to its size. -/
def Inode.Kin (i i' : Inode) : Prop := i'.index = i.index ∧ i'.mode = i.mode ∧ i'.nlinks = i.nlinks

theorem Inode.Kin.refl (i : Inode) : i.Kin i := ⟨rfl, rfl, rfl⟩

theorem Inode.Kin.trans {i i' i'' : Inode} (h : i.Kin i') (h' : i'.Kin i'') : i.Kin i'' :=
  ⟨h'.1.trans h.1, h'.2.1.trans h.2.1, h'.2.2.trans h.2.2⟩

/-- Of inode `n` only the size and the blocks are changed. -/
structure Volume.Resizes (v w : Volume) (n : Nat) : Prop where
  edits : v.Edits w n
  links : Allocated v.sb v.disk n →
    iNlinks (readInode w.sb w.disk n) = iNlinks (readInode v.sb v.disk n)
  objects : v.inodes.Rel Inode.Kin w.inodes

namespace Volume.Resizes

theorem refl (v : Volume) (n : Nat) : v.Resizes v n :=
  ⟨.refl v n, fun _ => rfl, .refl Inode.Kin.refl _⟩

theorem trans (h : v.Resizes w n) (h' : w.Resizes u n) : v.Resizes u n :=
  ⟨h.edits.trans h'.edits, fun hn => (h'.links (h.edits.self.mpr hn)).trans (h.links hn),
    h.objects.trans Inode.Kin.trans h'.objects⟩

/-- A change of zones only. -/
theorem disk {d : Disk} (hv : v.Inv) (he : v.Edits { v with disk := d } n)
    (hd : ZoneSide v.sb v.disk d) : v.Resizes { v with disk := d } n :=
  ⟨he, fun hn => congrArg iNlinks (hd.readInode hv.layout hn.1), .refl Inode.Kin.refl _⟩

/-- The end of `inode_truncate`, with a copy of the inode that has its old links. -/
theorem finish {d : Disk} {ino : Bytes} (hv : v.Inv) (hp : v.inodes.get p = some inode)
    (he : v.Edits (truncateEnd v p inode.index d ino) inode.index)
    (hlinks : iNlinks ino = iNlinks (readInode v.sb v.disk inode.index)) :
    v.Resizes (truncateEnd v p inode.index d ino) inode.index := by
  refine ⟨he, fun _ => ?_, .modify Inode.Kin.refl p fun i => ⟨rfl, rfl, rfl⟩⟩
  have hself := (writeInode_spec hv.layout d (hv.live hp).1.1 ino).2.1
  exact (Bytes.load_congr fun x _ hx => hself x (by omega)).trans hlinks

/-- **The operation keeps memory and disk in step**: sizes agree in every volume in order. -/
theorem synced (h : v.Resizes w n) (hv : v.Synced) (hw : w.Inv) : w.Synced := by
  refine ⟨hw, fun {q j} hq => ?_⟩
  obtain ⟨i, hi, hidx, hmode, hlinks⟩ := h.objects.back hq
  have hold := hv.same hi
  have halloc := (hv.inv.live hi).1
  have hnow := (hw.live hq).2
  by_cases hin : i.index = n
  · refine ⟨?_, hnow, ?_⟩
    · rw [hmode, hidx, hin, h.edits.mode (by rw [← hin]; exact halloc), ← hin]
      exact hold.mode
    · rw [hlinks, hidx, hin, h.links (by rw [← hin]; exact halloc), ← hin]
      exact hold.nlinks
  · have hread := h.edits.read hin halloc
    refine ⟨?_, hnow, ?_⟩
    · rw [hmode, hidx, hread]
      exact hold.mode
    · rw [hlinks, hidx, hread]
      exact hold.nlinks

end Volume.Resizes

theorem iNlinks_congr {a b : Bytes} (h : ∀ x, x < 24 → b x = a x) : iNlinks b = iNlinks a :=
  Bytes.load_congr fun x _ hx => h x (by omega)

theorem iNlinks_setSize (ino : Bytes) (size : Nat) : iNlinks (setSize ino size) = iNlinks ino :=
  Bytes.load_store_apart _ _ (by unfold Bytes.Apart; omega)

/-- **`inode_truncate`**, also when it gives up. -/
theorem Truncated.resizes {size : Nat} {rest : List (Nat × List Nat)} {r : Int} (hv : v.Inv)
    (hp : v.inodes.get p = some inode) (ht : Truncated v p inode size rest r w) :
    v.Resizes w inode.index := by
  have he := ht.edits hv hp
  cases ht with
  | same _ => exact .refl v _
  | full _ hg => exact .disk hv he hg.ext.rest
  | gap _ hg hcl => exact .disk hv he (hv.cleared_side hp hg.ext hcl)
  | grown _ hg _ =>
    refine .finish hv hp he ?_
    split
    · exact iNlinks_congr hg.ext.head
    · exact (iNlinks_setSize ..).trans (iNlinks_congr hg.ext.head)
  | shrunk _ hs _ =>
    exact .finish hv hp he ((iNlinks_setSize ..).trans (iNlinks_congr hs.head))

/-- **`inode_write`**, wherever it stops. -/
theorem inodeWrite_resizes (hv : v.Inv) (hp : v.inodes.get p = some inode) {start size : Nat}
    {data : Bytes} {r : Int} (hc : v.CleanWrite inode start size)
    (h : inodeWrite v p size start data = .ok (r, w)) : v.Resizes w inode.index := by
  refine (inodeWrite_rel (R := fun v w => v.Resizes w inode.index) hv hp ⟨fun v => .refl v _,
    fun h h' => h.trans h', fun hv hp hn _ ht => ?_, fun buf hv hp hn hb h0 => ?_⟩ hc h).2
  · rw [← hn]
    exact ht.resizes hv hp
  · rw [← hn]
    obtain ⟨_, hd⟩ := hv.writeBlock hp hb h0 buf
    exact .disk hv (hv.blockEdits hp hb h0 buf)
      (hd.zonesOnly hv.zones.sited (hv.live hp).1).zoneSide

/-! ## The other operations -/

/-- The inode on disk is left alone. -/
theorem InodeMirrors.congr (h : InodeMirrors v inode)
    (hread : readInode w.sb w.disk inode.index = readInode v.sb v.disk inode.index) :
    InodeMirrors w inode :=
  ⟨by rw [hread]; exact h.mode, by rw [hread]; exact h.size, by rw [hread]; exact h.nlinks⟩

/-- **`inode_create`**, also when it finds no zone. -/
theorem Created.synced {mode : Nat} {r : Option Nat} (hv : v.Synced) (hmode : mode < 2 ^ 16)
    (hc : Created v mode r w) : w.Synced := by
  have hw := hc.inv hv.inv
  refine ⟨hw, fun {q j} hq => ?_⟩
  cases r with
  | none =>
    have he := hc.edits hv.inv (j.index + 1)
    have hq' : v.inodes.get q = some j := by
      cases hc
      exact hq
    exact (hv.same hq').congr (he.read (by omega) (hv.inv.live hq').1)
  | some p =>
    obtain ⟨n, hun, ho, _, hm, _, _, _, hnew, hother, _⟩ := hc.others hv.inv
    by_cases hqp : q = p
    · subst hqp
      cases hnew.symm.trans hq
      refine ⟨?_, (hw.live hnew).2, ?_⟩
      · rw [hm, Nat.mod_eq_of_lt hmode]
      · cases hc with
        | @made m z d _ _ _ _ _ hself =>
          have hnm : m = n := by
            have hget : ((v.inodes.alloc ⟨m, 0, 0, 0⟩).modify v.inodes.next
                fun i => { i with mode := mode }).get v.inodes.next = some ⟨m, mode, 0, 0⟩ :=
              Store.modify_self_of Store.alloc_self rfl
            exact congrArg Inode.index (Option.some.inj (hget.symm.trans hnew))
          subst hnm
          -- the new inode is cleared before its mode and its zone are set
          symm
          refine (iNlinks_congr fun x hx => hself x (by omega)).trans ?_
          refine (iNlinks_congr fun x hx => setZone_head _ 0 z hx).trans ?_
          refine (Bytes.load_store_apart _ _ (by unfold Bytes.Apart; omega)).trans ?_
          exact Bytes.load_zero ..
    · rw [hother hqp] at hq
      have hne : j.index ≠ n := fun h => hun (by rw [← h]; exact (hv.inv.live hq).1)
      exact (hv.same hq).congr (ho.read hne (hv.inv.live hq).1)

/-- **`inode_get`** takes the fields from the disk. -/
theorem Volume.Synced.get (hv : v.Synced) (hn : Allocated v.sb v.disk n) :
    (inodeGet v n).2.Synced := by
  refine ⟨inodeGet_inv hv.inv hn, fun {q j} hq => ?_⟩
  unfold inodeGet at hq ⊢
  rcases getInode_cases hv.inv.mem.mem n with ⟨p, inode, hp, hidx, hg⟩ | ⟨hno, hg⟩
  · rw [hg] at hq ⊢
    obtain ⟨i, hi, rfl⟩ := Store.get_modify hq
    by_cases hqp : q = p
    · rw [hqp, hp] at hi
      cases hi
      subst hidx
      rw [if_pos hqp]
      exact ⟨rfl, rfl, rfl⟩
    · rw [if_neg hqp]
      exact (hv.same hi).congr rfl
  · rw [hg] at hq ⊢
    obtain ⟨i, hi, rfl⟩ := Store.get_modify hq
    by_cases hqp : q = v.inodes.next
    · rw [hqp, Store.alloc_self] at hi
      cases hi
      rw [if_pos hqp]
      exact ⟨rfl, rfl, rfl⟩
    · rw [Store.alloc_ne hqp] at hi
      rw [if_neg hqp]
      exact (hv.same hi).congr rfl

/-- **`inode_destroy`** releases its object. -/
theorem inodeDestroy_synced (hv : v.Synced) (hp : v.inodes.get p = some inode)
    (h : inodeDestroy v p = .ok w) : w.Synced := by
  have hw := inodeDestroy_inv hv.inv hp h
  obtain ⟨ho, _, hgone, _⟩ := inodeDestroy_others hv.inv hp h
  refine ⟨hw, fun {q j} hq => ?_⟩
  have hqp : q ≠ p := by
    rintro rfl
    rw [hgone] at hq
    cases hq
  have hq' : v.inodes.get q = some j := by
    obtain ⟨⟨r, u⟩, ht, h⟩ := bind_eq_ok h
    have htr := inodeTruncate_cases hv.inv hp no_slots (fun hlt => by omega) ht
    obtain ⟨inode', hp', _⟩ := htr.get hp
    simp only [hp'] at h
    cases h
    have hq : (u.inodes.free p).get q = some j := hq
    rw [Store.free_ne hqp, htr.frame.2.2.2 q hqp] at hq
    exact hq
  have hne : j.index ≠ inode.index := fun h => hqp (hv.inv.mem.inj hq' hp h)
  exact (hv.same hq').congr (ho.read hne (hv.inv.live hq').1)

/-- The object gets another number of links, and `inode_set` writes it to disk. -/
def setLinks (v : Volume) (p k : Nat) : Except Halt Volume :=
  inodeSet { v with inodes := v.inodes.modify p fun i => { i with nlinks := k } } p

theorem iNlinks_inodeSet (ino : Bytes) (mode size nlinks : Nat) :
    iNlinks (setNlinks (setSize (setMode ino mode) size) nlinks) = nlinks % 2 ^ 16 :=
  Bytes.load_store_self ..

/-- **A change of the link count followed by `inode_set`.** -/
theorem setLinks_synced (hv : v.Synced) (hp : v.inodes.get p = some inode) {k : Nat}
    (hk : k < 2 ^ 16) (h : setLinks v p k = .ok w) : w.Synced := by
  have hidx := (hv.inv.live hp).1
  have hget : (v.inodes.modify p fun i => { i with nlinks := k }).get p
      = some { inode with nlinks := k } := Store.modify_self_of hp rfl
  have hinv : Volume.Inv { v with inodes := v.inodes.modify p fun i => { i with nlinks := k } } :=
    ⟨hv.inv.layout, hv.inv.small, hv.inv.zones, hv.inv.mem.modify (f := fun i => { i with nlinks := k })
      hp rfl (show InodeOk v.sb v.disk _ from ⟨hidx, (hv.inv.live hp).2⟩) fun _ _ h => h⟩
  obtain ⟨w', hset, hw, he, _, _, hobj⟩ := inodeSet_spec hinv hget (hv.same hp).mode
  cases hset.symm.trans h
  refine ⟨hw, fun {q j} hq => ?_⟩
  rw [hobj] at hq
  obtain ⟨i, hi, rfl⟩ := Store.get_modify hq
  by_cases hqp : q = p
  · rw [hqp, hp] at hi
    cases hi
    rw [if_pos hqp]
    refine ⟨(hv.same hp).mode.trans (he.mode hidx).symm, ?_, ?_⟩
    · rw [if_pos hqp] at hq
      exact (hw.live (by rw [hobj]; exact hq)).2
    · -- the field that `inode_set` writes
      unfold inodeSet at hset
      rw [show ({ v with inodes := v.inodes.modify p fun i => { i with nlinks := k } } : Volume).inodes.get p
        = _ from hget] at hset
      cases hset
      have hself := (writeInode_spec hv.inv.layout v.disk hidx.1 (setNlinks (setSize (setMode
        (readInode v.sb v.disk inode.index) inode.mode) inode.size) k)).2.1
      refine (((Bytes.load_congr fun x _ hx => hself x (by omega)).trans
        (iNlinks_inodeSet ..)).trans (Nat.mod_eq_of_lt hk)).symm
  · rw [if_neg hqp]
    have hne : i.index ≠ inode.index := fun h => hqp (hv.inv.mem.inj hi hp h)
    exact (hv.same hi).congr (he.read hne (hv.inv.live hi).1)

/-! ## Runs -/

/-- The operations on inodes, and changes of a link count. -/
inductive MirrorAct where
  | zone (a : ZoneAct)
  | links (p k : Nat)

/-- One operation; modes and link counts are 16-bit numbers. -/
inductive MirrorStep : Volume → MirrorAct → Volume → Prop
  | zone {v v' : Volume} {a : ZoneAct} : (∀ mode, a = .create mode → mode < 2 ^ 16) →
      ZoneStep v a v' → MirrorStep v (.zone a) v'
  | links {v v' : Volume} {p k : Nat} : (v.inodes.get p).isSome → k < 2 ^ 16 →
      setLinks v p k = .ok v' → MirrorStep v (.links p k) v'

def MirrorAct.Clean (v : Volume) : MirrorAct → Prop
  | .zone a => a.Clean v
  | .links _ _ => True

theorem mirrorStep_synced {a : MirrorAct} (hv : v.Synced) (hc : a.Clean v) (h : MirrorStep v a w) :
    w.Synced := by
  cases h with
  | links hp hk h =>
    obtain ⟨inode, hp⟩ := Option.isSome_iff_exists.mp hp
    exact setLinks_synced hv hp hk h
  | zone hmode h =>
    have hw := zoneStep_inv hv.inv hc h
    cases h with
    | get hn => exact hv.get hn
    | create => exact (inodeCreate_cases hv.inv _).synced hv (hmode _ rfl)
    | write hp _ _ h =>
      obtain ⟨inode, hp⟩ := Option.isSome_iff_exists.mp hp
      exact (inodeWrite_resizes hv.inv hp (hc inode hp) h).synced hv hw
    | truncate hp _ h =>
      obtain ⟨inode, hp⟩ := Option.isSome_iff_exists.mp hp
      have ht := inodeTruncate_cases hv.inv hp no_slots
        (fun hlt => by rw [List.append_nil]; exact hc inode hp hlt) h
      exact (ht.resizes hv.inv hp).synced hv hw
    | destroy hp h =>
      obtain ⟨inode, hp⟩ := Option.isSome_iff_exists.mp hp
      exact inodeDestroy_synced hv hp h

/-- **Inodes in memory mirror the disk after every run of clean operations.** -/
theorem inodes_mirror_disk {as : List MirrorAct} (hm : v.Mounted) (hz : v.sb.sZones ≤ 2 ^ 16)
    (hr : Run (Guarded (fun v a => a.Clean v) MirrorStep) v as w) : w.Mirrors := by
  have hv : v.Synced := by
    refine ⟨hm.inv hz, fun h => ?_⟩
    rw [hm.inodes] at h
    exact absurd h (by simp [Store.empty])
  exact (Run.invariant hr hv fun _ _ _ hi h => mirrorStep_synced hi h.1 h.2).mirrors

/-- A file is made, linked once, and gets five bytes. -/
theorem inodes_mirror_disk_five : ∃ w, Run (Guarded (fun v a => a.Clean v) MirrorStep) emptyVolume
    [.zone (.create 0o100644), .links 0 1, .zone (.write 0 5 0 fun _ => 7)] w
      ∧ w.inodes.get 0 = some ⟨1, 0o100644, 1, 5⟩ ∧ w.Mirrors := by
  have hprobe : (do
      let v ← setLinks (inodeCreate emptyVolume 0o100644).2 0 1
      let q ← inodeWrite v 0 5 0 fun _ => 7
      pure ((inodeCreate emptyVolume 0o100644).2.inodes.get 0, v.inodes.get 0, q.2.inodes.get 0) :
        Except Halt _).toOption
      = some (some ⟨1, 0o100644, 0, 0⟩, some ⟨1, 0o100644, 1, 0⟩, some ⟨1, 0o100644, 1, 5⟩) := by
    decide
  cases hv : setLinks (inodeCreate emptyVolume 0o100644).2 0 1 with
  | error e =>
    rw [hv] at hprobe
    exact absurd hprobe (by simp [bind, Except.bind, Except.toOption])
  | ok v =>
    rw [hv] at hprobe
    cases hw : inodeWrite v 0 5 0 fun _ => 7 with
    | error e =>
      simp only [bind, Except.bind, hw] at hprobe
      exact absurd hprobe (by simp [Except.toOption])
    | ok q =>
      obtain ⟨r, w⟩ := q
      simp only [bind, Except.bind, hw, pure, Except.pure, Except.toOption, Option.some.injEq,
        Prod.mk.injEq] at hprobe
      obtain ⟨h0, h1, h2⟩ := hprobe
      have hrun : Run (Guarded (fun v a => a.Clean v) MirrorStep) emptyVolume
          [.zone (.create 0o100644), .links 0 1, .zone (.write 0 5 0 fun _ => 7)] w := by
        refine ((Run.nil.snoc ⟨trivial, .zone (fun mode h => ?_) .create⟩).snoc
          ⟨trivial, .links (by rw [h0]; rfl) (by decide) hv⟩).snoc
          ⟨fun inode hp => ?_, .zone (fun mode h => absurd h (by simp)) (.write (by rw [h1]; rfl)
            (by decide) (by decide) hw)⟩
        · exact clean_of_direct fun s hs => writeSlots_direct (by decide) s hs
        · cases h
          decide
      exact ⟨w, hrun, h2, inodes_mirror_disk emptyVolume_fresh.mounted (by decide) hrun⟩

/-! ## A zone that names the inode table -/

/-- Inode 1 is `sevenBlocks`. Zone 12 is free and holds the number 4, of the block with the
inode table. -/
def staleVolume : Volume where
  sb := ⟨64, 1, 1, 5, 16⟩
  disk := fun b =>
    if b = 2 then fun x => if x = 0 then 0b11 else 0
    else if b = 3 then fun x => if x = 0 then 0xff else 0
    else if b = 4 then sevenBlocks
    else if b = 12 then Bytes.store (fun _ => 0) 4 0 4
    else fun _ => 0
  inodes := Store.empty
  list := []

theorem staleVolume_slot {k : Nat} {q : List Nat} (hn : Allocated staleVolume.sb staleVolume.disk n)
    (hs : IsSlot k q)
    (h0 : zoneOf staleVolume.disk (readInode staleVolume.sb staleVolume.disk n) k q ≠ 0) :
    n = 1 ∧ q = [] ∧ k ≤ 6
      ∧ zoneOf staleVolume.disk (readInode staleVolume.sb staleVolume.disk n) k q = 5 + k := by
  have hbits : ∀ n ≤ 64, imapBit staleVolume.disk n = true → n = 0 ∨ n = 1 := by decide
  have hzones : ∀ k ≤ 8, iZone (readInode staleVolume.sb staleVolume.disk 1) k
      = if k ≤ 6 then 5 + k else 0 := by decide
  have hn1 : n = 1 := (hbits n hn.1.2 hn.2).resolve_left (by have := hn.1.1; omega)
  subst hn1
  have hroot := hzones k hs.1
  by_cases hk : k ≤ 6
  · have hq : q = [] := List.length_eq_zero_iff.mp (by
      have := hs.2.1
      omega)
    subst hq
    rw [if_pos hk] at hroot
    exact ⟨rfl, rfl, hk, hroot⟩
  · rw [if_neg hk] at hroot
    exact absurd (zoneOf_empty hroot q) h0

theorem staleVolume_mounted : staleVolume.Mounted := by
  refine ⟨⟨by decide, by decide, by decide, by decide⟩, ⟨fun hn hs h0 => ?_, fun hn hs h0 => ?_,
    fun hn hs hm hq h0 he => ?_⟩, rfl, rfl⟩
  · obtain ⟨_, _, hk, h⟩ := staleVolume_slot hn hs h0
    rw [h]
    exact ⟨Nat.le_add_right 5 _, show _ < 16 by omega⟩
  · obtain ⟨_, _, hk, h⟩ := staleVolume_slot hn hs h0
    have hmap : ∀ z ≤ 11, 5 ≤ z → zmapBit staleVolume.sb staleVolume.disk z = true := by decide
    exact hmap _ (by omega) (by omega)
  · obtain ⟨rfl, rfl, _, h⟩ := staleVolume_slot hn hs h0
    obtain ⟨rfl, rfl, _, g⟩ := staleVolume_slot hm hq (by rw [← he]; exact h0)
    exact ⟨rfl, by omega, rfl⟩

/-- The file gets an eighth block, which by the stale word is the inode table, and a byte
written to it changes the mode on disk. -/
theorem inodes_mirror_disk_lost : ¬ ∀ (v w : Volume) (as : List MirrorAct), v.Mounted →
    v.sb.sZones ≤ 2 ^ 16 → Run MirrorStep v as w → w.Mirrors := by
  intro hall
  have hprobe : (do
      let q ← inodeTruncate (inodeGet staleVolume 1).2 0 28672
      let q' ← inodeWrite q.2 0 1 28672 fun _ => 7
      pure (((inodeGet staleVolume 1).2.inodes.get 0).isSome, (q.2.inodes.get 0).isSome,
        q'.2.inodes.get 0, iMode (readInode q'.2.sb q'.2.disk 1)) : Except Halt _).toOption
      = some (true, true, some ⟨1, 0, 0, 28673⟩, 7) := by
    decide
  cases hv : inodeTruncate (inodeGet staleVolume 1).2 0 28672 with
  | error e =>
    rw [hv] at hprobe
    exact absurd hprobe (by simp [bind, Except.bind, Except.toOption])
  | ok q =>
    obtain ⟨r, v⟩ := q
    rw [hv] at hprobe
    cases hw : inodeWrite v 0 1 28672 fun _ => 7 with
    | error e =>
      simp only [bind, Except.bind, hw] at hprobe
      exact absurd hprobe (by simp [Except.toOption])
    | ok q =>
      obtain ⟨r', w⟩ := q
      simp only [bind, Except.bind, hw, pure, Except.pure, Except.toOption, Option.some.injEq,
        Prod.mk.injEq] at hprobe
      obtain ⟨h0, h1, h2, h3⟩ := hprobe
      have hn : Allocated staleVolume.sb staleVolume.disk 1 :=
        ⟨⟨by decide, by decide⟩, by decide⟩
      have hrun : Run MirrorStep staleVolume [.zone (.get 1), .zone (.truncate 0 28672),
          .zone (.write 0 1 28672 fun _ => 7)] w :=
        ((Run.nil.snoc (.zone (fun _ h => absurd h (by simp)) (.get hn))).snoc
          (.zone (fun _ h => absurd h (by simp)) (.truncate h0 (by decide) hv))).snoc
          (.zone (fun _ h => absurd h (by simp)) (.write h1 (by decide) (by decide) hw))
      have hm := ((hall staleVolume w _ staleVolume_mounted (by decide) hrun).same h2).mode
      rw [h3] at hm
      cases hm

end Cyanurus
