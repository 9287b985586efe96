import Cyanurus.Fs.Shrink

/-!
# The data of files

The bytes of a file are those of the zones in the slots of its blocks. `get_block`
finds the slot, and writing such a zone leaves the forest of zones alone, because a
zone with data in it is never an indirect zone: it would sit in two slots.

`DataOnly` describes the writes of `inode_write` and of the loop of `inode_truncate`
that clears: of the whole disk only data zones of one file are written.
-/

namespace Cyanurus

open Forest

/-- Byte `x` of a file. -/
def fileByte (d : Disk) (ino : Bytes) (x : Nat) : UInt8 :=
  d (blockZone d ino (x / blockSize)) (x % blockSize)

/-- Only zones with data of the inode differ. -/
def DataOnly (d d' : Disk) (ino : Bytes) : Prop :=
  ∀ b, (b ≠ 0 → ∀ k p, IsSlot k p → p.length = k - 6 → zoneOf d ino k p ≠ b) → d' b = d b

variable {sb : Superblock} {d d' d'' d₀ : Disk} {A : Nat → Prop} {f : Nat → Bytes}
  {ino ino' : Bytes} {n m k z b : Nat} {p : List Nat}

/-! ## Finding a block -/

/-- **`get_block` returns the zone of the block.** -/
theorem getBlock_eq (hl : sb.Layout) (hz : sb.sZones ≤ 2 ^ 16) (hzs : Sited sb d A f) (hn : A n)
    (hf : readInode sb d n = f n) (hb : b < 2 ^ 16) :
    getBlock sb d n b = blockZone d (f n) b := by
  have hslot := (blockSlot hb).1
  have hlt : ∀ {k p}, IsSlot k p → zoneOf d (f n) k p < 2 ^ 16 := by
    intro k p hs
    by_cases h0 : zoneOf d (f n) k p = 0
    · rw [h0]
      decide
    · exact ((hzs.isZone hn hs h0).bounds hl hz).1
  have hmod : ∀ {k p}, IsSlot k p → zoneOf d (f n) k p % 2 ^ 16 = zoneOf d (f n) k p :=
    fun hs => Nat.mod_eq_of_lt (hlt hs)
  have hroot : ∀ k, zoneOf d (f n) k [] = iZone (f n) k := fun _ => rfl
  unfold getBlock blockZone
  rw [hf]
  rcases blockPath_cases hb with ⟨h0, h1, h2⟩ | ⟨h1, h2, _, _⟩ | ⟨h1, h2, _, _, _⟩
  · rw [h1, h2] at hslot ⊢
    by_cases hr : iZone (f n) b = 0
    · rw [if_pos hr, hroot, hr]
    · rw [if_neg hr, if_neg (by omega), if_neg (by omega), ← hroot, hmod hslot]
  · rw [h1, h2] at hslot ⊢
    simp only []
    by_cases hr : iZone (f n) 7 = 0
    · rw [if_pos hr]
      exact (zoneOf_cons_zero (p := []) hr).symm
    · have hcell := zoneOf_cons (d := d) (j := b - 7) (hroot 7) hr
      have h7 : blockRead d (iZone (f n) 7) = d (iZone (f n) 7) := blockRead_zone (hlt hslot.up) d
      rw [if_neg hr, if_pos trivial, h7, ← hcell, hmod hslot]
  · rw [h1, h2] at hslot ⊢
    simp only []
    generalize (b - (7 + zonesPerBlock)) / zonesPerBlock = i at hslot ⊢
    by_cases hr : iZone (f n) 8 = 0
    · rw [if_pos hr]
      exact (zoneOf_cons_zero (zoneOf_cons_zero (p := []) hr)).symm
    · have hcell := zoneOf_cons (d := d) (j := i) (hroot 8) hr
      have h8 : blockRead d (iZone (f n) 8) = d (iZone (f n) 8) := blockRead_zone (hlt hslot.up.up) d
      rw [if_neg hr, if_neg (by omega), if_pos trivial, h8, ← hcell]
      by_cases hw : zoneOf d (f n) 8 [i] = 0
      · rw [if_pos hw]
        exact (zoneOf_cons_zero hw).symm
      · rw [if_neg hw, blockRead_zone (hlt hslot.up), ← zoneOf_cons rfl hw, hmod hslot]

/-! ## Writing data -/

theorem DataOnly.refl (d : Disk) (ino : Bytes) : DataOnly d d ino := fun _ _ => rfl

/-- The zone of a block is written. -/
theorem dataOnly_update (hb : b < 2 ^ 16) (h0 : blockZone d ino b ≠ 0) (buf : Bytes) :
    DataOnly d (Function.update d (blockZone d ino b) buf) ino := by
  intro c hc
  refine Function.update_of_ne (fun h => ?_) _ _
  exact hc (by rw [h]; exact h0) _ _ (blockSlot hb).1 (blockSlot hb).2 h.symm

/-- An inode with more slots. -/
theorem DataOnly.mono (h : DataOnly d d' ino)
    (hsub : ∀ {k p}, IsSlot k p → zoneOf d ino k p = 0 ∨ zoneOf d ino k p = zoneOf d ino' k p) :
    DataOnly d d' ino' := by
  intro b hb
  refine h b fun h0 k p hs hp heq => ?_
  rcases hsub hs with h1 | h1
  · exact h0 (by rw [← heq, h1])
  · exact hb h0 k p hs hp (by rw [← h1]; exact heq)

/-- A zone with data of `n` is no indirect zone, and is no zone of another inode. -/
theorem DataOnly.zone (hd : DataOnly d d' (f n))
    (hzs : Sited sb d A f) (hn : A n) (hm : A m) (hs : IsSlot k p)
    (h0 : zoneOf d (f m) k p ≠ 0) (hne : m ≠ n ∨ p.length < k - 6) :
    d' (zoneOf d (f m) k p) = d (zoneOf d (f m) k p) := by
  refine hd _ fun _ l q hq hlen heq => ?_
  obtain ⟨h1, h2, h3⟩ := hzs.unique hm hs hn hq h0 heq.symm
  subst h1 h2 h3
  rcases hne with h | h
  · exact h rfl
  · omega

/-- The slots are where they were. -/
theorem DataOnly.zoneOf_eq (hd : DataOnly d d' (f n))
    (hzs : Sited sb d A f) (hn : A n) (hm : A m) (hs : IsSlot k p) :
    zoneOf d' (f m) k p = zoneOf d (f m) k p := by
  refine zoneOf_congr (fun j q hq h0 => ?_) (fun _ _ => rfl) hs
  unfold zoneMem
  rw [hd.zone hzs hn hm hq.up h0 (Or.inr ?_)]
  have := hq.2.1
  simp only [List.length_cons] at this
  omega

theorem DataOnly.zonesOnly (hd : DataOnly d d' (f n)) (hzs : Sited sb d A f) (hn : A n) :
    ZonesOnly sb d d' := by
  intro b hb
  refine hd b fun h0 k p hs _ heq => ?_
  have := (hzs.isZone hn hs (by rw [heq]; exact h0)).1
  omega

theorem DataOnly.follow_eq (hd : DataOnly d d' (f n)) (hzs : Sited sb d A f) (hn : A n)
    {s : Nat × Nat} {q : List Nat} (hq : (zoneShape A).ok s q) :
    follow (zoneRoot f) (zoneMem d') s q = follow (zoneRoot f) (zoneMem d) s q := by
  rw [follow_zoneRoot, follow_zoneRoot]
  exact hd.zoneOf_eq hzs hn hq.1 hq.2

theorem DataOnly.sited (hd : DataOnly d d' (f n)) (hzs : Sited sb d A f) (hn : A n) :
    Sited sb d' A f := hzs.congr (hd.follow_eq hzs hn) fun _ hx => hx

/-- **Ownership does not depend on data.** -/
theorem DataOnly.zones (hd : DataOnly d d' (f n)) (hl : sb.Layout) (hzs : Zones sb d A f)
    (hn : A n) : Zones sb d' A f := by
  refine hzs.congr (hd.follow_eq hzs.sited hn) fun x hx => ⟨hx.1, ?_⟩
  rw [(hd.zonesOnly hzs.sited hn).zmapBit hl hx.1]
  exact hx.2

theorem DataOnly.trans (h : DataOnly d d' (f n))
    (hzs : Sited sb d A f) (hn : A n) (h' : DataOnly d' d'' (f n)) : DataOnly d d'' (f n) := by
  intro b hb
  rw [h' b fun h0 k p hs hp => by rw [h.zoneOf_eq hzs hn hn hs]; exact hb h0 k p hs hp]
  exact h b hb

/-- Zones that are not marked are not written. -/
theorem DataOnly.free (hd : DataOnly d d' (f n)) (hzs : Zones sb d A f) (hn : A n)
    (hz : zmapBit sb d z = false) : d' z = d z := by
  refine hd z fun h0 k p hs _ heq => ?_
  have := (hzs.marked hn hs (by rw [heq]; exact h0)).2
  rw [heq, hz] at this
  cases this

/-! ## The loop that clears -/

/-- What a write to a block of inode `n` keeps, whatever is written. -/
theorem dataOnly_write (hl : sb.Layout) (hz : sb.sZones ≤ 2 ^ 16) (hzs : Zones sb d A f) (hn : A n)
    (hi : sb.IsInode n) (hf : readInode sb d n = f n) (hb : b < 2 ^ 16)
    (h0 : getBlock sb d n b ≠ 0) (buf : Bytes) :
    DataOnly d (blockWrite d (getBlock sb d n b) buf) (f n)
      ∧ Zones sb (blockWrite d (getBlock sb d n b) buf) A f
      ∧ readInode sb (blockWrite d (getBlock sb d n b) buf) n = f n := by
  have heq := getBlock_eq hl hz hzs.sited hn hf hb
  rw [heq] at h0 ⊢
  have hlt : blockZone d (f n) b < 2 ^ 16 :=
    ((hzs.marked hn (blockSlot hb).1 h0).bounds hl hz).1
  rw [blockWrite_zone hlt]
  have hd := dataOnly_update hb h0 buf
  exact ⟨hd, hd.zones hl hzs hn, by rw [(hd.zonesOnly hzs.sited hn).readInode hl hi]; exact hf⟩

/-- The loop of `inode_truncate` writes data of the inode only. -/
theorem clearLoop_data (hl : sb.Layout) (hz : sb.sZones ≤ 2 ^ 16) (hn : A n) (hi : sb.IsInode n)
    (size : Nat) {ok : Bool} : ∀ (fuel : Nat) {d d' : Disk} {tstart tsize : Nat},
    Zones sb d A f → readInode sb d n = f n →
    clearLoop sb n size fuel d tstart tsize = .ok (ok, d') → DataOnly d d' (f n)
  | 0, _, _, _, _, _, _, h => absurd h (by simp [clearLoop])
  | fuel + 1, d, d', tstart, tsize, hzs, hf, h => by
    rw [clearLoop] at h
    simp only [] at h
    split at h
    · cases h
      exact DataOnly.refl _ _
    · split at h
      · cases h
        exact DataOnly.refl _ _
      · rename_i h0
        split at h
        · cases h
        · split at h
          · cases h
          · obtain ⟨hd, hzs', hf'⟩ := dataOnly_write hl hz hzs hn hi hf
              (Nat.mod_lt _ (by decide)) h0
              ((blockRead d (getBlock sb d n (tstart / blockSize % 2 ^ 16))).fill
                (tstart % blockSize) (copySize tstart tsize) 0)
            exact hd.trans hzs.sited hn (clearLoop_data hl hz hn hi size fuel hzs' hf' h)

end Cyanurus
