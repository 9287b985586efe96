import Cyanurus.Fs.Extend

/-!
# Shrinking a file

`shrink_zone` goes through the blocks from the last one down. It gives back the zone
of a block, and with the first block under an indirect zone that zone too. Cutting a
zone off takes everything below it out of the file, so a file whose indirect zones
are not in order loses zones, but no zone is given back while it is in use.
-/

namespace Cyanurus

open Forest

/--
The inode `n` is being shrunk. `d₀` is the disk it started from, where the contents
of the inode were `f n`; `ino` is the copy in work.
-/
structure Shrunk (sb : Superblock) (A : Nat → Prop) (f : Nat → Bytes) (n : Nat) (d₀ d : Disk)
    (ino : Bytes) : Prop where
  zones : Zones sb d A (Function.update f n ino)
  /-- A slot holds what it held or nothing. -/
  slots : ∀ {k p}, IsSlot k p → zoneOf d ino k p = 0 ∨ zoneOf d ino k p = zoneOf d₀ (f n) k p
  /-- The slots of other inodes are untouched. -/
  others : ∀ {m k p}, A m → m ≠ n → IsSlot k p → zoneOf d (f m) k p = zoneOf d₀ (f m) k p
  /-- Of the zones, only indirect zones of this inode are written. -/
  same : ∀ {z}, sb.sFirstdatazone ≤ z →
    (∀ k p, IsSlot k p → p.length < k - 6 → zoneOf d₀ (f n) k p ≠ z) → d z = d₀ z
  /-- Outside the zones, only the zone map is written. -/
  rest : ∀ b, b < sb.sFirstdatazone → b < sb.zmapStart ∨ sb.inodeZoneIndex ≤ b → d b = d₀ b
  /-- No zone gets marked. -/
  marks : ∀ {z}, sb.IsZone z → zmapBit sb d z = true → zmapBit sb d₀ z = true
  bit0 : bitAt d sb.zmapStart 0 = bitAt d₀ sb.zmapStart 0
  /-- The fields before the zones are untouched. -/
  head : ∀ x, x < 24 → ino x = f n x

variable {sb : Superblock} {d d' d₀ : Disk} {A : Nat → Prop} {f : Nat → Bytes} {ino ino' : Bytes}
  {n k z b : Nat} {p : List Nat}

theorem Shrunk.refl (hz : Zones sb d A f) (n : Nat) : Shrunk sb A f n d d (f n) where
  zones := by rw [Function.update_eq_self]; exact hz
  slots := fun _ => Or.inr rfl
  others := fun _ _ _ => rfl
  same := fun _ _ => rfl
  rest := fun _ _ _ => rfl
  marks := fun _ h => h
  bit0 := rfl
  head := fun _ _ => rfl

/-- Slots that are not below `(k, p)` hold what they held. -/
def SparesOthers (d : Disk) (ino : Bytes) (k : Nat) (p : List Nat) (d' : Disk) (ino' : Bytes) : Prop :=
  ∀ l q, IsSlot l q → (l = k → ¬ p <:+ q) → zoneOf d' ino' l q = zoneOf d ino l q

/-- The zone in the slot `(k, p)` is given back, and the slot is empty. -/
structure CutOff (sb : Superblock) (d : Disk) (ino : Bytes) (k : Nat) (p : List Nat) (d' : Disk)
    (ino' : Bytes) : Prop where
  slot : IsSlot k p
  was : zoneOf d ino k p ≠ 0
  gone : zoneOf d' ino' k p = 0
  spares : SparesOthers d ino k p d' ino'
  marks : ∀ z, sb.IsZone z →
    zmapBit sb d' z = (zmapBit sb d z && decide (z ≠ zoneOf d ino k p))

/-- **The zone in a slot is given back and the slot is cleared.** -/
theorem Shrunk.cut (hs : Shrunk sb A f n d₀ d ino) (hpos : 0 < sb.sFirstdatazone) (hn : A n)
    (hk : IsSlot k p) (hz : zoneOf d ino k p = z) (h0 : z ≠ 0)
    (hmarks : ∀ z', sb.IsZone z' → zmapBit sb d' z' = (zmapBit sb d z' && decide (z' ≠ z)))
    (hbit : bitAt d' sb.zmapStart 0 = bitAt d sb.zmapStart 0)
    (ha : Assigned sb A f n k p d ino d' ino') (hcut : zoneOf d' ino' k p = 0) :
    Shrunk sb A f n d₀ d' ino' ∧ CutOff sb d ino k p d' ino' := by
  have hprune : ∀ {s : Nat × Nat} {q : List Nat}, (zoneShape A).ok s q →
      follow (zoneRoot (Function.update f n ino')) (zoneMem d') s q = 0
        ∨ follow (zoneRoot (Function.update f n ino')) (zoneMem d') s q
          = follow (zoneRoot (Function.update f n ino)) (zoneMem d) s q :=
    follow_prune ha.elsewhere (by rw [follow_update]; exact hcut)
  refine ⟨⟨?_, fun {l q} hq => ?_, fun {m l q} hm hne hq => ?_, fun {z'} hz' hidx => ?_,
    fun b hb hb' => ?_, fun {z'} hz' h => ?_, by rw [hbit]; exact hs.bit0, fun x hx => ?_⟩,
    hk, by rw [hz]; exact h0, hcut, fun l q hq hne => ha.spares hn hq hne, by rw [hz]; exact hmarks⟩
  · refine hs.zones.sub hprune fun {s q} hq hne => ?_
    have hsz := hs.zones.pruned (k := (n, k)) ⟨hn, hk⟩ (by rw [follow_update]; exact hz) h0
      (by rw [follow_update]; exact hcut) hprune hq hne
    have heq := (hprune hq).resolve_left hne
    rw [heq] at hne hsz ⊢
    have hm := hs.zones.good hq hne
    refine ⟨hm.1, ?_⟩
    rw [hmarks _ hm.1, hm.2, decide_eq_true hsz]
    rfl
  · have h := hprune (s := (n, l)) (q := q) ⟨hn, hq⟩
    rw [follow_update, follow_update] at h
    rcases h with h | h
    · exact Or.inl h
    · rw [h]
      exact hs.slots hq
  · rw [ha.others hm hne hq]
    exact hs.others hm hne hq
  · have hold : ∀ l q, IsSlot l q → q.length < l - 6 → zoneOf d ino l q ≠ z' := by
      intro l q hq hlt heq
      rcases hs.slots hq with h | h
      · omega
      · exact hidx l q hq hlt (by rw [← h]; exact heq)
    rw [ha.same z' hz' hold]
    exact hs.same hz' hidx
  · rw [ha.rest b hb hb']; exact hs.rest b hb hb'
  · rw [hmarks z' hz', Bool.and_eq_true] at h
    exact hs.marks hz' h.1
  · rw [ha.head x hx]; exact hs.head x hx

/-- A zone named in the inode is cut off. -/
theorem Shrunk.cutRoot (hs : Shrunk sb A f n d₀ d ino) (hl : sb.Layout) (hz : sb.sZones ≤ 2 ^ 16)
    (hn : A n) (hk : k ≤ 8) (h0 : iZone ino k ≠ 0) :
    Shrunk sb A f n d₀ (unmarkZmap sb d (iZone ino k)) (setZone ino k 0)
      ∧ CutOff sb d ino k [] (unmarkZmap sb d (iZone ino k)) (setZone ino k 0) := by
  have hslot : IsSlot k [] := ⟨hk, Nat.zero_le _, by simp⟩
  have hm : Marked sb d (iZone ino k) := hs.zones.marked_self hn hslot h0
  obtain ⟨hd, hmarks, hbit⟩ := unmarkZmap_spec hl hz d hm.1
  refine hs.cut hl.first_pos hn hslot rfl h0 hmarks hbit (.root hs.zones hl hd 0) ?_
  show iZone (setZone ino k 0) k = 0
  rw [iZone_setZone_self, Nat.zero_mod]

/-- A zone named in an indirect zone `w` is cut off. -/
theorem Shrunk.cutWord (hs : Shrunk sb A f n d₀ d ino) (hl : sb.Layout) (hz : sb.sZones ≤ 2 ^ 16)
    (hn : A n) {j w : Nat} {q : List Nat} (hk : IsSlot k (j :: q)) (hw : zoneOf d ino k q = w)
    (hw0 : w ≠ 0) (h0 : zoneWord (d w) j ≠ 0) :
    Shrunk sb A f n d₀ (Function.update (unmarkZmap sb d (zoneWord (d w) j)) w
        ((d w).store 4 (4 * j) 0)) ino
      ∧ CutOff sb d ino k (j :: q) (Function.update (unmarkZmap sb d (zoneWord (d w) j)) w
        ((d w).store 4 (4 * j) 0)) ino := by
  have hwm := hs.zones.marked_self hn hk.up (by rw [hw]; exact hw0)
  rw [hw] at hwm
  obtain ⟨_, hwfirst, _⟩ := hwm.bounds hl hz
  have hval := zoneOf_cons (j := j) hw hw0
  have hm := hs.zones.marked_self hn hk (by rw [hval]; exact h0)
  rw [hval] at hm
  obtain ⟨hd, hmarks, hbit⟩ := unmarkZmap_spec hl hz d hm.1
  generalize unmarkZmap sb d (zoneWord (d w) j) = d1 at hd hmarks hbit ⊢
  obtain ⟨hassign, hcut⟩ := Assigned.word hs.zones hl hn hk hw hw0 hwfirst hd 0
  have hzonly := update_zonesOnly hwfirst d1 ((d w).store 4 (4 * j) 0)
  refine hs.cut hl.first_pos hn hk hval h0 (fun z' hz' => ?_) ?_ hassign (by rw [hcut, Nat.zero_mod])
  · rw [hzonly.zmapBit hl hz', hmarks z' hz']
  · rw [hzonly.zmapBit0 hl, hbit]

/-! ## The slots that go with a block -/

/-- The first block that the slot `(k, p)` is needed for. -/
def slotBlock (k : Nat) : List Nat → Nat
  | [] => if k = 8 then 7 + zonesPerBlock else k
  | [i] => if k = 8 then 7 + zonesPerBlock + zonesPerBlock * i else 7 + i
  | j :: i :: _ => 7 + zonesPerBlock + zonesPerBlock * i + j

/-- A slot on the way to a block is needed for it. -/
theorem slotBlock_le (hb : b < 2 ^ 16) (hp : p <:+ blockPath b) : slotBlock (zoneSlot b) p ≤ b := by
  rcases blockPath_cases hb with ⟨h0, h1, h2⟩ | ⟨h1, h2, _, h3⟩ | ⟨h1, h2, _, _, h3⟩
  · rw [h2, List.suffix_nil] at hp
    rw [h1, hp, slotBlock, if_neg (by omega)]
  · rw [h2, List.suffix_cons_iff, List.suffix_nil] at hp
    rw [h1]
    rcases hp with rfl | rfl
    · rw [slotBlock, if_neg (by decide)]
      omega
    · rw [slotBlock, if_neg (by decide)]
      omega
  · rw [h2, List.suffix_cons_iff, List.suffix_cons_iff, List.suffix_nil] at hp
    have hdiv := Nat.div_add_mod (b - (7 + zonesPerBlock)) zonesPerBlock
    rw [h1]
    rcases hp with rfl | rfl | rfl
    · rw [slotBlock]
      omega
    · rw [slotBlock, if_pos rfl]
      omega
    · exact h3

/-- From the end of a path upwards, as long as it is the first one of its siblings. -/
def cutPaths : List Nat → List (List Nat)
  | [] => [[]]
  | j :: p => (j :: p) :: if j = 0 then cutPaths p else []

/-- The slots that go with a block: its own, and those of the indirect zones that it is the
first block of. -/
def blockSlots (b : Nat) : List (Nat × List Nat) :=
  (cutPaths (blockPath b)).map fun p => (zoneSlot b, p)

theorem cutPaths_suffix : ∀ {q : List Nat}, p ∈ cutPaths q → p <:+ q
  | [], h => by
    rw [cutPaths, List.mem_singleton] at h
    rw [h]
  | j :: q, h => by
    rw [cutPaths, List.mem_cons] at h
    rcases h with rfl | h
    · exact List.suffix_refl _
    · split at h
      · exact (cutPaths_suffix h).trans (List.suffix_cons j q)
      · cases h

theorem mem_blockSlots_iff :
    (k, p) ∈ blockSlots b ↔ zoneSlot b = k ∧ p ∈ cutPaths (blockPath b) := by
  unfold blockSlots
  rw [List.mem_map]
  constructor
  · rintro ⟨q, hq, he⟩
    obtain ⟨rfl, rfl⟩ := Prod.mk.inj he
    exact ⟨rfl, hq⟩
  · rintro ⟨rfl, hq⟩
    exact ⟨p, hq, rfl⟩

/-- A block of the indirect zone. -/
theorem blockPath_single {i : Nat} (hi : i < zonesPerBlock) :
    zoneSlot (7 + i) = 7 ∧ blockPath (7 + i) = [i] := by
  unfold zoneSlot blockPath
  rw [if_neg (by omega), if_pos (by omega), if_neg (by omega), if_pos (by omega),
    Nat.add_sub_cancel_left]
  exact ⟨rfl, rfl⟩

/-- A block of the doubly indirect zone. -/
theorem blockPath_double {i j : Nat} (hj : j < zonesPerBlock) :
    zoneSlot (7 + zonesPerBlock + zonesPerBlock * i + j) = 8
      ∧ blockPath (7 + zonesPerBlock + zonesPerBlock * i + j) = [j, i] := by
  unfold zoneSlot blockPath
  rw [if_neg (by omega), if_neg (by omega), if_neg (by omega), if_neg (by omega),
    show 7 + zonesPerBlock + zonesPerBlock * i + j - (7 + zonesPerBlock) = j + zonesPerBlock * i by
      omega,
    Nat.add_mul_mod_self_left, Nat.mod_eq_of_lt hj, Nat.add_mul_div_left _ _ (by decide),
    Nat.div_eq_of_lt hj, Nat.zero_add]
  exact ⟨rfl, rfl⟩

/-- **A block takes those slots with it that no earlier block needs.** -/
theorem mem_blockSlots (hb : b < 2 ^ 16) :
    (k, p) ∈ blockSlots b ↔ IsSlot k p ∧ slotBlock k p = b := by
  rw [mem_blockSlots_iff]
  constructor
  · rintro ⟨rfl, hq⟩
    refine ⟨(blockSlot hb).1.suffix (cutPaths_suffix hq), ?_⟩
    rcases blockPath_cases hb with ⟨h0, h1, h2⟩ | ⟨h1, h2, _, h3⟩ | ⟨h1, h2, _, _, h3⟩
    · rw [h2, cutPaths, List.mem_singleton] at hq
      rw [hq, h1, slotBlock, if_neg (by omega)]
    · rw [h2] at hq
      simp only [cutPaths, List.mem_cons, List.mem_ite_nil_right, List.not_mem_nil, or_false] at hq
      rw [h1]
      rcases hq with rfl | ⟨hj, rfl⟩
      all_goals
        rw [slotBlock, if_neg (by decide)]
        omega
    · rw [h2] at hq
      simp only [cutPaths, List.mem_cons, List.mem_ite_nil_right, List.not_mem_nil, or_false] at hq
      have hdiv := Nat.div_add_mod (b - (7 + zonesPerBlock)) zonesPerBlock
      rw [h1]
      rcases hq with rfl | ⟨hj, rfl | ⟨hi, rfl⟩⟩
      · rw [slotBlock]
        omega
      · rw [slotBlock, if_pos rfl]
        omega
      · rw [slotBlock, if_pos rfl]
        rw [hi] at hdiv
        omega
  · rintro ⟨⟨hk, hlen, hj⟩, rfl⟩
    have hpos : 0 < zonesPerBlock := by decide
    rcases p with _ | ⟨j, _ | ⟨i, _ | ⟨_, q⟩⟩⟩
    · by_cases h8 : k = 8
      · obtain ⟨h1, h2⟩ := blockPath_double (i := 0) hpos
        rw [slotBlock, if_pos h8, h8]
        exact ⟨h1, by rw [show 7 + zonesPerBlock = 7 + zonesPerBlock + zonesPerBlock * 0 + 0 by omega, h2]; decide⟩
      · rw [slotBlock, if_neg h8]
        by_cases h7 : k = 7
        · obtain ⟨h1, h2⟩ := blockPath_single hpos
          rw [h7]
          exact ⟨h1, by rw [show 7 = 7 + 0 by omega, h2]; decide⟩
        · unfold zoneSlot blockPath
          rw [if_pos (by omega), if_pos (by omega)]
          exact ⟨rfl, by decide⟩
    · simp only [List.length_cons] at hlen
      have hj' := hj j (List.mem_cons_self ..)
      by_cases h8 : k = 8
      · obtain ⟨h1, h2⟩ := blockPath_double (i := j) hpos
        rw [Nat.add_zero] at h1 h2
        rw [slotBlock, if_pos h8, h8]
        exact ⟨h1, by rw [h2]; simp [cutPaths]⟩
      · obtain ⟨h1, h2⟩ := blockPath_single hj'
        rw [slotBlock, if_neg h8, show k = 7 by omega]
        exact ⟨h1, by rw [h2]; simp [cutPaths]⟩
    · simp only [List.length_cons] at hlen
      obtain ⟨h1, h2⟩ := blockPath_double (i := i) (hj j (List.mem_cons_self ..))
      rw [slotBlock, show k = 8 by omega]
      exact ⟨h1, by rw [h2]; simp [cutPaths]⟩
    · simp only [List.length_cons] at hlen
      omega

/-- A slot below one that goes with a block is needed for later blocks, or goes with it too. -/
theorem blockSlots_below {q : List Nat} (hb : b < 2 ^ 16) (hs : (k, p) ∈ blockSlots b)
    (hq : IsSlot k q) (hpq : p <:+ q) (hle : slotBlock k q ≤ b) : (k, q) ∈ blockSlots b := by
  have hq' := (mem_blockSlots_iff.mp ((mem_blockSlots (by omega)).mpr ⟨hq, rfl⟩))
  have h1 := slotBlock_le (p := p) (show slotBlock k q < 2 ^ 16 by omega)
    (hpq.trans (cutPaths_suffix hq'.2))
  rw [hq'.1, ((mem_blockSlots hb).mp hs).2] at h1
  exact (mem_blockSlots hb).mpr ⟨hq, by omega⟩

/-- The slots go from below. -/
theorem cutPaths_pairwise : ∀ p : List Nat, (cutPaths p).Pairwise fun q r => ¬ q <:+ r
  | [] => List.pairwise_singleton _ _
  | j :: p => by
    rw [cutPaths, List.pairwise_cons]
    refine ⟨fun r hr hsuf => ?_, ?_⟩
    · split at hr
      · have h1 := hsuf.length_le
        have h2 := (cutPaths_suffix hr).length_le
        simp only [List.length_cons] at h1
        omega
      · cases hr
    · split
      · exact cutPaths_pairwise p
      · exact List.Pairwise.nil

theorem blockSlots_pairwise (b : Nat) :
    (blockSlots b).Pairwise fun s t => s.1 = t.1 → ¬ s.2 <:+ t.2 := by
  refine List.pairwise_map.mpr ((cutPaths_pairwise (blockPath b)).imp ?_)
  intro q r h _
  exact h

/-! ## Cutting one slot after the other -/

/-- The slots are cut off one after the other. -/
inductive Cuts (sb : Superblock) : Disk → Bytes → List (Nat × List Nat) → Disk → Bytes → Prop
  | nil {d : Disk} {ino : Bytes} : Cuts sb d ino [] d ino
  | cons {d d' d'' : Disk} {ino ino' ino'' : Bytes} {k : Nat} {p : List Nat}
      {slots : List (Nat × List Nat)} : CutOff sb d ino k p d' ino' → Cuts sb d' ino' slots d'' ino'' →
      Cuts sb d ino ((k, p) :: slots) d'' ino''

/-- The blocks before `b` are where they were. -/
def Below (d : Disk) (ino : Bytes) (b : Nat) (d' : Disk) (ino' : Bytes) : Prop :=
  ∀ c, c < b → blockZone d' ino' c = blockZone d ino c

/-- No slot that goes with block `b` is on the way to an earlier block. -/
theorem Cuts.keeps_below {slots : List (Nat × List Nat)} (h : Cuts sb d ino slots d' ino')
    (hb : b < 2 ^ 16) (hslots : ∀ s ∈ slots, s ∈ blockSlots b) : Below d ino b d' ino' := by
  induction h with
  | nil => exact fun _ _ => rfl
  | @cons d d' d'' ino ino' ino'' k p slots hcut _ ih =>
    intro c hc
    have hc16 : c < 2 ^ 16 := Nat.lt_trans hc hb
    have hkp := ((mem_blockSlots hb).mp (hslots _ (List.mem_cons_self ..))).2
    refine (ih (fun s hs => hslots s (List.mem_cons_of_mem _ hs)) c hc).trans
      (hcut.spares _ _ (blockSlot hc16).1 fun hk hsuf => ?_)
    have := slotBlock_le hc16 hsuf
    rw [hk] at this
    omega

/-- **One round of `shrink_zone`**: an unmapped block is passed over, a mapped one is cut off
with the slots that go with it. -/
theorem shrinkBlock_cuts (hl : sb.Layout) (hz : sb.sZones ≤ 2 ^ 16) (hn : A n)
    (hs : Shrunk sb A f n d₀ d ino) (hb : b < 2 ^ 16) :
    (blockZone d ino b = 0 ∧ shrinkBlock sb d ino b = (d, ino))
    ∨ Shrunk sb A f n d₀ (shrinkBlock sb d ino b).1 (shrinkBlock sb d ino b).2
      ∧ Cuts sb d ino (blockSlots b) (shrinkBlock sb d ino b).1 (shrinkBlock sb d ino b).2 := by
  have hslot := (blockSlot hb).1
  have hzone : ∀ {e : Disk} {i : Bytes} {l : Nat} {q : List Nat}, Shrunk sb A f n d₀ e i →
      IsSlot l q → zoneOf e i l q ≠ 0 → zoneOf e i l q < 2 ^ 16 :=
    fun h hq h0 => ((h.zones.marked_self hn hq h0).bounds hl hz).1
  unfold shrinkBlock blockZone blockSlots
  rcases blockPath_cases hb with ⟨h0, h1, h2⟩ | ⟨h1, h2, _, _⟩ | ⟨h1, h2, _, _, _⟩
  · rw [h2]
    simp only [h1]
    by_cases hr : iZone ino b = 0
    · rw [if_pos hr]
      exact Or.inl ⟨hr, rfl⟩
    · rw [if_neg hr, if_neg (by omega), if_neg (by omega)]
      obtain ⟨hcut, hoff⟩ := hs.cutRoot hl hz hn (by omega) hr
      exact Or.inr ⟨hcut, .cons hoff .nil⟩
  · rw [h1, h2] at hslot
    rw [h2]
    simp only [h1]
    by_cases hr : iZone ino 7 = 0
    · rw [if_pos hr]
      exact Or.inl ⟨zoneOf_cons_zero (p := []) hr, rfl⟩
    · have h7 : zoneOf d ino 7 [] = iZone ino 7 := rfl
      rw [if_neg hr]
      have hlt : iZone ino 7 < 2 ^ 16 := hzone hs hslot.up hr
      rw [blockRead_zone hlt]
      by_cases hw : zoneWord (d (iZone ino 7)) (b - 7) = 0
      · rw [if_pos hw]
        exact Or.inl ⟨(zoneOf_cons h7 hr).trans hw, rfl⟩
      · rw [if_neg hw, blockWrite_zone hlt]
        obtain ⟨hcut, hoff⟩ := hs.cutWord hl hz hn hslot (w := iZone ino 7) rfl hr hw
        right
        by_cases hfirst : b - 7 = 0
        · rw [if_pos hfirst]
          obtain ⟨hcut', hoff'⟩ := hcut.cutRoot hl hz hn (by omega) hr
          refine ⟨hcut', .cons hoff ?_⟩
          rw [if_pos hfirst]
          exact .cons hoff' .nil
        · rw [if_neg hfirst]
          refine ⟨hcut, .cons hoff ?_⟩
          rw [if_neg hfirst]
          exact .nil
  · rw [h1, h2] at hslot
    rw [h2]
    simp only [h1]
    generalize (b - (7 + zonesPerBlock)) / zonesPerBlock = i at hslot ⊢
    generalize (b - (7 + zonesPerBlock)) % zonesPerBlock = j at hslot ⊢
    by_cases hr : iZone ino 8 = 0
    · rw [if_pos hr]
      exact Or.inl ⟨zoneOf_cons_zero (zoneOf_cons_zero (p := []) hr), rfl⟩
    · rw [if_neg hr]
      have hlt : iZone ino 8 < 2 ^ 16 := hzone hs hslot.up.up hr
      have h8 : zoneOf d ino 8 [] = iZone ino 8 := rfl
      rw [blockRead_zone hlt]
      have hwz := zoneOf_cons (j := i) h8 hr
      by_cases hw : zoneWord (d (iZone ino 8)) i = 0
      · rw [if_pos hw]
        exact Or.inl ⟨zoneOf_cons_zero (hwz.trans hw), rfl⟩
      · have hwlt := hzone hs hslot.up (by rw [hwz]; exact hw)
        rw [hwz] at hwlt
        rw [if_neg hw, blockRead_zone hwlt]
        by_cases hv : zoneWord (d (zoneWord (d (iZone ino 8)) i)) j = 0
        · rw [if_pos hv]
          exact Or.inl ⟨(zoneOf_cons hwz hw).trans hv, rfl⟩
        · rw [if_neg hv, blockWrite_zone hwlt]
          obtain ⟨hcut, hoff⟩ := hs.cutWord hl hz hn hslot hwz hw hv
          have hne : iZone ino 8 ≠ zoneWord (d (iZone ino 8)) i := by
            intro heq
            have hu := hs.zones.unique (k := 8) (p := []) (l := 8) (q := [i]) hn hslot.up.up hn
              hslot.up
            rw [Function.update_self, hwz] at hu
            exact absurd (hu hr heq).2.2 (by simp)
          right
          by_cases hfirst : j = 0
          · rw [if_pos hfirst, blockWrite_zone hlt]
            -- the zone `i_zone[8]` still holds what was read at the start
            have hkeep : Function.update (unmarkZmap sb d
                (zoneWord (d (zoneWord (d (iZone ino 8)) i)) j)) (zoneWord (d (iZone ino 8)) i)
                ((d (zoneWord (d (iZone ino 8)) i)).store 4 (4 * j) 0) (iZone ino 8)
                = d (iZone ino 8) := by
              have hm := hs.zones.marked_self hn hslot (by rw [zoneOf_cons hwz hw]; exact hv)
              rw [zoneOf_cons hwz hw] at hm
              rw [Function.update_of_ne hne]
              exact (unmarkZmap_spec hl hz d hm.1).1.zone hl (hs.zones.marked_self hn hslot.up.up hr).1.1
            obtain ⟨hcut', hoff'⟩ := hcut.cutWord hl hz hn hslot.up (w := iZone ino 8) rfl hr
              (by rw [hkeep]; exact hw)
            rw [hkeep] at hcut' hoff'
            by_cases hlast : i = 0
            · rw [if_pos hlast]
              obtain ⟨hcut'', hoff''⟩ := hcut'.cutRoot hl hz hn (by omega) hr
              refine ⟨hcut'', .cons hoff ?_⟩
              rw [if_pos hfirst]
              refine .cons hoff' ?_
              rw [if_pos hlast]
              exact .cons hoff'' .nil
            · rw [if_neg hlast]
              refine ⟨hcut', .cons hoff ?_⟩
              rw [if_pos hfirst]
              refine .cons hoff' ?_
              rw [if_neg hlast]
              exact .nil
          · rw [if_neg hfirst]
            refine ⟨hcut, .cons hoff ?_⟩
            rw [if_neg hfirst]
            exact .nil

/-- Either way the blocks before it stay. -/
theorem shrinkBlock_shrunk (hl : sb.Layout) (hz : sb.sZones ≤ 2 ^ 16) (hn : A n)
    (hs : Shrunk sb A f n d₀ d ino) (hb : b < 2 ^ 16) :
    Shrunk sb A f n d₀ (shrinkBlock sb d ino b).1 (shrinkBlock sb d ino b).2
      ∧ Below d ino b (shrinkBlock sb d ino b).1 (shrinkBlock sb d ino b).2 := by
  rcases shrinkBlock_cuts hl hz hn hs hb with ⟨_, he⟩ | ⟨hs', hcuts⟩
  · rw [he]
    exact ⟨hs, fun _ _ => rfl⟩
  · exact ⟨hs', hcuts.keeps_below hb fun _ h => h⟩

/-- The loop of `shrink_zone` -/
theorem shrinkLoop_shrunk (hl : sb.Layout) (hz : sb.sZones ≤ 2 ^ 16) (hn : A n) (stop : Nat) :
    ∀ (m : Nat) {d : Disk} {ino : Bytes}, stop + m < 2 ^ 16 → Shrunk sb A f n d₀ d ino →
      Shrunk sb A f n d₀ (shrinkLoop sb stop d ino m).1 (shrinkLoop sb stop d ino m).2
        ∧ Below d ino (stop + 1) (shrinkLoop sb stop d ino m).1 (shrinkLoop sb stop d ino m).2
  | 0, _, _, _, hs => ⟨hs, fun _ _ => rfl⟩
  | m + 1, _, _, hm, hs => by
    obtain ⟨hs', hlow⟩ := shrinkBlock_shrunk hl hz hn hs hm
    obtain ⟨hs'', hlow'⟩ := shrinkLoop_shrunk hl hz hn stop m (by omega) hs'
    exact ⟨hs'', fun c hc => (hlow' c hc).trans (hlow c (by omega))⟩

/-- **`shrink_zone`** -/
theorem shrinkZone_shrunk (hl : sb.Layout) (hz : sb.sZones ≤ 2 ^ 16) (hn : A n) (size : Nat)
    (hs : Shrunk sb A f n d₀ d ino) :
    ∃ ino', Shrunk sb A f n d₀ (shrinkZone sb d ino size).1 ino'
      ∧ Below d ino (size / blockSize % 2 ^ 16 + 1) (shrinkZone sb d ino size).1 ino'
      ∧ (shrinkZone sb d ino size).2 = setSize ino' size := by
  obtain ⟨hs', hlow⟩ := shrinkLoop_shrunk hl hz hn (size / blockSize % 2 ^ 16)
    (iSize ino / blockSize % 2 ^ 16 - size / blockSize % 2 ^ 16) (by omega) hs
  exact ⟨_, hs', hlow, rfl⟩

end Cyanurus
