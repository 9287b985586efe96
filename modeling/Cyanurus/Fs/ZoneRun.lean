import Cyanurus.Lib.Run
import Cyanurus.Fs.Create

/-!
# Zone ownership over runs

The operations of `inode.c` on a mounted volume, in any order, on any inodes. Ownership
of zones is lost when a zone that still holds words becomes an indirect zone: the
words are taken for zone numbers. `twoFiles` is a volume on which growing one file by
one block makes a zone of the other file a zone of both.

Nothing else can break it. In every run whose operations are clean (`ZoneAct.Clean`, a
condition on the free zones before each operation) every zone that is reached from an
inode is a marked data zone and is reached once.
-/

namespace Cyanurus

open Lts

/-- The operations on inodes. -/
inductive ZoneAct where
  | get (n : Nat)
  | create (mode : Nat)
  | write (p size start : Nat) (data : Bytes)
  | truncate (p size : Nat)
  | destroy (p : Nat)

/-- One operation, on an inode that is in memory; sizes are 32-bit numbers. -/
inductive ZoneStep : Volume → ZoneAct → Volume → Prop
  | get {v : Volume} {n : Nat} : Allocated v.sb v.disk n → ZoneStep v (.get n) (inodeGet v n).2
  | create {v : Volume} {mode : Nat} : ZoneStep v (.create mode) (inodeCreate v mode).2
  | write {v v' : Volume} {p size start : Nat} {data : Bytes} {r : Int} :
      (v.inodes.get p).isSome → size < 2 ^ 32 → start < 2 ^ 32 →
      inodeWrite v p size start data = .ok (r, v') → ZoneStep v (.write p size start data) v'
  | truncate {v v' : Volume} {p size : Nat} {r : Int} :
      (v.inodes.get p).isSome → size < 2 ^ 32 →
      inodeTruncate v p size = .ok (r, v') → ZoneStep v (.truncate p size) v'
  | destroy {v v' : Volume} {p : Nat} :
      (v.inodes.get p).isSome → inodeDestroy v p = .ok v' → ZoneStep v (.destroy p) v'

/-- Every zone number reached from an allocated inode is a data zone, is marked, and is
reached by one path from one inode. -/
structure Volume.OwnsZones (v : Volume) : Prop where
  zone : ∀ {n k p}, Allocated v.sb v.disk n → IsSlot k p →
    zoneOf v.disk (readInode v.sb v.disk n) k p ≠ 0 →
    v.sb.IsZone (zoneOf v.disk (readInode v.sb v.disk n) k p)
  marked : ∀ {n k p}, Allocated v.sb v.disk n → IsSlot k p →
    zoneOf v.disk (readInode v.sb v.disk n) k p ≠ 0 →
    zmapBit v.sb v.disk (zoneOf v.disk (readInode v.sb v.disk n) k p) = true
  once : ∀ {n k p m l q}, Allocated v.sb v.disk n → IsSlot k p → Allocated v.sb v.disk m →
    IsSlot l q → zoneOf v.disk (readInode v.sb v.disk n) k p ≠ 0 →
    zoneOf v.disk (readInode v.sb v.disk n) k p = zoneOf v.disk (readInode v.sb v.disk m) l q →
    n = m ∧ k = l ∧ p = q

/-- A volume that has just been mounted: its zones are owned, and no inode is in memory. -/
structure Volume.Mounted (v : Volume) : Prop where
  layout : v.sb.Layout
  owned : v.OwnsZones
  inodes : v.inodes = Store.empty
  list : v.list = []

/-- The zones an operation is going to take for indirect zones are clear. -/
def ZoneAct.Clean (v : Volume) : ZoneAct → Prop
  | .write p size start _ => ∀ inode, v.inodes.get p = some inode →
      Cyanurus.Clean v.disk (hasZone v.disk (readInode v.sb v.disk inode.index))
        (writeSlots ((start + size) % 2 ^ 32 / blockSize % 2 ^ 16) fileRounds
          (start / blockSize % 2 ^ 16) inode.size start size) (freeZones v.sb v.disk)
  | .truncate p size => ∀ inode, v.inodes.get p = some inode → inode.size < size →
      Cyanurus.Clean v.disk (hasZone v.disk (readInode v.sb v.disk inode.index))
        (extendSlots inode.size size) (freeZones v.sb v.disk)
  | _ => True

variable {v v' : Volume} {a : ZoneAct}

theorem Volume.ownsZones_iff :
    v.OwnsZones ↔ Zones v.sb v.disk (Allocated v.sb v.disk) (readInode v.sb v.disk) := by
  refine ⟨fun h => ⟨fun {s p} hs h0 => ?_, fun {s p t q} hs ht h0 he => ?_⟩, fun h => ?_⟩
  · rw [follow_zoneRoot] at h0 ⊢
    exact ⟨h.zone hs.1 hs.2 h0, h.marked hs.1 hs.2 h0⟩
  · obtain ⟨m, l⟩ := t
    rw [follow_zoneRoot] at h0
    rw [follow_zoneRoot, follow_zoneRoot] at he
    obtain ⟨rfl, rfl, rfl⟩ := h.once hs.1 hs.2 ht.1 ht.2 h0 he
    exact ⟨rfl, rfl⟩
  · exact ⟨fun hn hs h0 => (h.marked hn hs h0).1, fun hn hs h0 => (h.marked hn hs h0).2,
      fun hn hs hm hq h0 he => h.unique hn hs hm hq h0 he⟩

theorem Volume.Mounted.inv (hm : v.Mounted) (hz : v.sb.sZones ≤ 2 ^ 16) : v.Inv := by
  refine ⟨hm.layout, hz, Volume.ownsZones_iff.mp hm.owned, ?_⟩
  rw [hm.inodes, hm.list]
  exact Store.Listed.empty

theorem zoneStep_inv (hv : v.Inv) (hc : a.Clean v) (hs : ZoneStep v a v') : v'.Inv := by
  cases hs with
  | get hn => exact inodeGet_inv hv hn
  | create => exact (inodeCreate_cases hv _).inv hv
  | write hp _ _ h =>
    obtain ⟨inode, hp⟩ := Option.isSome_iff_exists.mp hp
    exact inodeWrite_inv hv hp (hc inode hp) h
  | truncate hp _ h =>
    obtain ⟨inode, hp⟩ := Option.isSome_iff_exists.mp hp
    have ht := inodeTruncate_cases hv hp no_slots
      (fun hlt => by rw [List.append_nil]; exact hc inode hp hlt) h
    exact ht.inv hv hp
  | destroy hp h =>
    obtain ⟨inode, hp⟩ := Option.isSome_iff_exists.mp hp
    exact inodeDestroy_inv hv hp h

/-- **Zones are owned after every run of clean operations.** -/
theorem zone_ownership {as : List ZoneAct} (hm : v.Mounted) (hz : v.sb.sZones ≤ 2 ^ 16)
    (hr : Run (Guarded (fun v a => a.Clean v) ZoneStep) v as v') : v'.OwnsZones := by
  have hinv := Run.invariant hr (hm.inv hz) fun s a s' hi h => zoneStep_inv hi h.1 h.2
  exact Volume.ownsZones_iff.mpr hinv.zones

/-! ## Two files -/

/-- An inode with blocks 0 to 6, in the zones 5 to 11. -/
def sevenBlocks : Bytes :=
  (List.range 7).foldl (fun ino k => setZone ino k (5 + k)) (setSize (fun _ => 0) (6 * blockSize))

/-- Inode 1 is `sevenBlocks`, inode 2 has one block in zone 12. Zone 13 is free; on the
dirty disk it holds the number 12. -/
def twoFilesDisk (dirty : Bool) : Disk := fun b =>
  if b = 2 then fun x => if x = 0 then 0b111 else 0
  else if b = 3 then fun x => if x = 0 then 0xff else if x = 1 then 1 else 0
  else if b = 4 then
    Bytes.copy (Bytes.copy (fun _ => 0) 0 sevenBlocks 0 64) 64 (setZone (fun _ => 0) 0 12) 0 64
  else if b = 13 then Bytes.store (fun _ => 0) 4 0 (if dirty then 12 else 0)
  else fun _ => 0

def twoFiles (dirty : Bool) : Volume where
  sb := ⟨64, 1, 1, 5, 16⟩
  disk := twoFilesDisk dirty
  inodes := Store.empty
  list := []

/-- Inode 1 holds zones 5 to 11, inode 2 holds zone 12, and there are no others. -/
theorem twoFiles_zone (dirty : Bool) {n k : Nat}
    (hn : Allocated (twoFiles dirty).sb (twoFiles dirty).disk n) (hk : k ≤ 8) :
    (n = 1 ∧ iZone (readInode (twoFiles dirty).sb (twoFiles dirty).disk n) k
        = if k ≤ 6 then 5 + k else 0)
    ∨ (n = 2 ∧ iZone (readInode (twoFiles dirty).sb (twoFiles dirty).disk n) k
        = if k = 0 then 12 else 0) := by
  obtain ⟨⟨h1, h2⟩, h3⟩ := hn
  have hbits : ∀ n ≤ 64, imapBit (twoFiles dirty).disk n = true → n = 0 ∨ n = 1 ∨ n = 2 := by
    cases dirty <;> decide
  have hzones : ∀ k ≤ 8,
      iZone (readInode (twoFiles dirty).sb (twoFiles dirty).disk 1) k = (if k ≤ 6 then 5 + k else 0)
      ∧ iZone (readInode (twoFiles dirty).sb (twoFiles dirty).disk 2) k = if k = 0 then 12 else 0 := by
    cases dirty <;> decide
  rcases hbits n h2 h3 with rfl | rfl | rfl
  · omega
  · exact Or.inl ⟨rfl, (hzones k hk).1⟩
  · exact Or.inr ⟨rfl, (hzones k hk).2⟩

/-- Nothing hangs under an indirect zone, so a zone in a slot is one of those. -/
theorem twoFiles_slot (dirty : Bool) {n k : Nat} {p : List Nat}
    (hn : Allocated (twoFiles dirty).sb (twoFiles dirty).disk n) (hs : IsSlot k p)
    (h0 : zoneOf (twoFiles dirty).disk (readInode (twoFiles dirty).sb (twoFiles dirty).disk n) k p ≠ 0) :
    p = [] ∧ k ≤ 6 ∧ zoneOf (twoFiles dirty).disk
      (readInode (twoFiles dirty).sb (twoFiles dirty).disk n) k p = (if n = 1 then 5 else 12) + k
      ∧ (n = 1 ∨ n = 2 ∧ k = 0) := by
  have hroot := twoFiles_zone dirty hn hs.1
  by_cases hk : k ≤ 6
  · have hp : p = [] := List.length_eq_zero_iff.mp (by
      have := hs.2.1
      omega)
    subst hp
    have hval : zoneOf (twoFiles dirty).disk (readInode (twoFiles dirty).sb (twoFiles dirty).disk n) k []
        = iZone (readInode (twoFiles dirty).sb (twoFiles dirty).disk n) k := rfl
    rw [hval] at h0 ⊢
    rcases hroot with ⟨rfl, h⟩ | ⟨rfl, h⟩
    · exact ⟨rfl, hk, by rw [h, if_pos hk, if_pos rfl], Or.inl rfl⟩
    · have hk0 : k = 0 := by
        by_contra hne
        rw [h, if_neg hne] at h0
        exact h0 rfl
      subst hk0
      exact ⟨rfl, hk, by rw [h]; rfl, Or.inr ⟨rfl, rfl⟩⟩
  · refine absurd (zoneOf_empty ?_ p) h0
    rcases hroot with ⟨rfl, h⟩ | ⟨rfl, h⟩
    · rw [h, if_neg hk]
    · rw [h, if_neg (by omega)]

theorem twoFiles_mounted (dirty : Bool) : (twoFiles dirty).Mounted := by
  refine ⟨?_, ⟨fun hn hs h0 => ?_, fun hn hs h0 => ?_, fun {n k p m l q} hn hs hm hq h0 he => ?_⟩,
    rfl, rfl⟩
  · cases dirty <;> exact ⟨by decide, by decide, by decide, by decide⟩
  · obtain ⟨_, h1, h2, h3⟩ := twoFiles_slot dirty hn hs h0
    rw [h2]
    show 5 ≤ _ ∧ _ < 16
    split <;> omega
  · obtain ⟨_, h1, h2, h3⟩ := twoFiles_slot dirty hn hs h0
    have hmap : ∀ z ≤ 12, 5 ≤ z → zmapBit (twoFiles dirty).sb (twoFiles dirty).disk z = true := by
      cases dirty <;> decide
    rw [h2]
    refine hmap _ ?_ ?_ <;> split <;> omega
  · obtain ⟨rfl, h1, h2, h3⟩ := twoFiles_slot dirty hn hs h0
    obtain ⟨rfl, g1, g2, g3⟩ := twoFiles_slot dirty hm hq (by rw [← he]; exact h0)
    rw [h2, g2] at he
    have hboth : n = m ∧ k = l := by
      split at he <;> split at he <;> omega
    exact ⟨hboth.1, hboth.2, rfl⟩

/-- Inode 1 loaded and given an eighth block. -/
def growFirst (dirty : Bool) : Except Halt (Int × Volume) :=
  inodeTruncate (inodeGet (twoFiles dirty) 1).2 0 (7 * blockSize)

theorem growFirst_ok (dirty : Bool) : ∃ r v, growFirst dirty = .ok (r, v) := by
  have h : (growFirst dirty).isOk = true := by cases dirty <;> decide
  cases hg : growFirst dirty with
  | error e =>
    rw [hg] at h
    exact absurd h (by simp [Except.isOk, Except.toBool])
  | ok q => exact ⟨q.1, q.2, rfl⟩

theorem growFirst_step {dirty : Bool} {r : Int} (h : growFirst dirty = .ok (r, v)) :
    ZoneStep (twoFiles dirty) (.get 1) (inodeGet (twoFiles dirty) 1).2
      ∧ ZoneStep (inodeGet (twoFiles dirty) 1).2 (.truncate 0 (7 * blockSize)) v := by
  refine ⟨.get ?_, .truncate ?_ (by decide) h⟩
  · cases dirty <;> exact ⟨⟨by decide, by decide⟩, by decide⟩
  · cases dirty <;> decide

/-- The new indirect zone 13 brings zone 12 of inode 2 into inode 1. -/
theorem growFirst_shared {r : Int} (hg : growFirst true = .ok (r, v)) :
    Allocated v.sb v.disk 1 ∧ Allocated v.sb v.disk 2
      ∧ zoneOf v.disk (readInode v.sb v.disk 1) 7 [0] = 12
      ∧ zoneOf v.disk (readInode v.sb v.disk 2) 0 [] = 12 := by
  have h : (growFirst true).toOption.map (fun q => (q.2.sb.sNinodes, imapBit q.2.disk 1,
      imapBit q.2.disk 2, zoneOf q.2.disk (readInode q.2.sb q.2.disk 1) 7 [0],
      zoneOf q.2.disk (readInode q.2.sb q.2.disk 2) 0 [])) = some (64, true, true, 12, 12) := by
    decide
  rw [hg] at h
  simp only [Except.toOption, Option.map_some, Option.some.injEq, Prod.mk.injEq] at h
  obtain ⟨h1, h2, h3, h4, h5⟩ := h
  exact ⟨⟨⟨by decide, by rw [h1]; decide⟩, h2⟩, ⟨⟨by decide, by rw [h1]; decide⟩, h3⟩, h4, h5⟩

/-- Ownership is lost on the dirty volume. -/
theorem zone_ownership_lost : ¬ ∀ (v v' : Volume) (as : List ZoneAct), v.Mounted →
    Run ZoneStep v as v' → v'.OwnsZones := by
  intro hall
  obtain ⟨r, v, hg⟩ := growFirst_ok true
  obtain ⟨hget, htrunc⟩ := growFirst_step hg
  have howns := hall _ _ _ (twoFiles_mounted true) ((Run.nil.snoc hget).snoc htrunc)
  obtain ⟨h1, h2, h3, h4⟩ := growFirst_shared hg
  have hs1 : IsSlot 7 [0] := ⟨by decide, by decide, by decide⟩
  have hs2 : IsSlot 0 [] := ⟨by decide, by decide, by decide⟩
  have := (howns.once h1 hs1 h2 hs2 (by rw [h3]; decide) (by rw [h3, h4])).1
  cases this

/-- On the clean volume the free zones are clear. -/
theorem twoFiles_clear : ∀ z ∈ freeZones (twoFiles false).sb (twoFiles false).disk,
    Clear (twoFiles false).disk z := by
  have hfree : freeZones (twoFiles false).sb (twoFiles false).disk = [13, 14] := by decide
  have hzero : ∀ z ∈ [13, 14], (twoFiles false).disk z = fun _ => 0 := by
    intro z hz
    rcases List.mem_cons.mp hz with rfl | hz
    · funext x
      show (if 0 ≤ x ∧ x < 0 + 4 then UInt8.ofNat (0 / 256 ^ (x - 0)) else 0) = 0
      rw [Nat.zero_div]
      split <;> rfl
    · rw [List.mem_singleton.mp hz]
      rfl
  intro z hz j _
  rw [hzero z (hfree ▸ hz)]
  exact Bytes.load_zero 4 (4 * j)

/-- On the clean volume the same operations are clean. -/
theorem zone_ownership_twoFiles : ∃ v, Run (Guarded (fun v a => a.Clean v) ZoneStep)
    (twoFiles false) [.get 1, .truncate 0 (7 * blockSize)] v ∧ v.OwnsZones := by
  obtain ⟨r, v, hg⟩ := growFirst_ok false
  obtain ⟨hget, htrunc⟩ := growFirst_step hg
  have hclean : ZoneAct.Clean (inodeGet (twoFiles false) 1).2 (.truncate 0 (7 * blockSize)) :=
    fun _ _ _ => clean_of_clear twoFiles_clear
  have h1 : Run (Guarded (fun v a => a.Clean v) ZoneStep) (twoFiles false) [.get 1]
      (inodeGet (twoFiles false) 1).2 := Run.nil.snoc ⟨trivial, hget⟩
  have h2 := h1.snoc ⟨hclean, htrunc⟩
  exact ⟨v, h2, zone_ownership (twoFiles_mounted false) (by decide) h2⟩

end Cyanurus
