import Mathlib.Data.List.Infix
import Mathlib.Data.Finset.Card
import Cyanurus.Fs.Zones

/-!
# Extending a file

`extend_zone` takes one block after another and fills the slots on the way to it:
at most two slots for indirect zones, then the slot of the block. The zone for an
empty slot is the first one that is free.

A zone that becomes an indirect zone keeps the bytes it holds, and its words then
count as zone numbers. Nothing in `extend_zone` clears it, so ownership survives only
if it is clear already. `Clean` says this of the state before the extension: it pairs
the empty slots with the free zones they are going to get.

The zones an extension takes can be counted before it starts: `missing` is the number of
slots on the way that are still empty, and an extension succeeds exactly if that many
zones are free.
-/

namespace Cyanurus

open Forest

/-- The word indices that lead to a block of a file, the last one first. -/
def blockPath (block : Nat) : List Nat :=
  if block ≤ 6 then []
  else if block < 7 + zonesPerBlock then [block - 7]
  else [(block - (7 + zonesPerBlock)) % zonesPerBlock, (block - (7 + zonesPerBlock)) / zonesPerBlock]

/-- The slots on the way to a block, in the order in which `extend_zone` fills them. -/
def spine (block : Nat) : List (Nat × List Nat) :=
  (blockPath block).tails.reverse.map fun p => (zoneSlot block, p)

/-- The zone in the slot of a block, 0 if the block is not mapped. -/
def blockZone (d : Disk) (ino : Bytes) (block : Nat) : Nat :=
  zoneOf d ino (zoneSlot block) (blockPath block)

/-- Is there a zone in this slot? -/
def hasZone (d : Disk) (ino : Bytes) (s : Nat × List Nat) : Bool := zoneOf d ino s.1 s.2 != 0

/-- A zone without zone numbers in it. -/
def Clear (d : Disk) (z : Nat) : Prop := ∀ j, j < zonesPerBlock → zoneWord (d z) j = 0

instance (d : Disk) (z : Nat) : Decidable (Clear d z) :=
  inferInstanceAs (Decidable (∀ j, j < zonesPerBlock → zoneWord (d z) j = 0))

/--
Filling `slots` in this order from the zones `free` makes no zone an indirect zone
that is not clear on `d`; `has` are the slots that are filled already.
-/
def Clean (d : Disk) : (Nat × List Nat → Bool) → List (Nat × List Nat) → List Nat → Prop
  | _, [], _ => True
  | has, s :: slots, free =>
    if has s then Clean d has slots free
    else
      match free with
      | [] => True
      | z :: free =>
        (s.2.length < s.1 - 6 → Clear d z) ∧ Clean d (Function.update has s true) slots free

variable {sb : Superblock} {d d' d'' d₀ : Disk} {A : Nat → Prop} {f : Nat → Bytes}
  {ino ino' ino'' : Bytes} {n k z b : Nat} {p : List Nat}

/-! ## The slots of a block -/

theorem blockPath_cases (hb : b < 2 ^ 16) :
    (b ≤ 6 ∧ zoneSlot b = b ∧ blockPath b = [])
    ∨ (zoneSlot b = 7 ∧ blockPath b = [b - 7] ∧ b - 7 < zonesPerBlock ∧ 6 < b)
    ∨ (zoneSlot b = 8
        ∧ blockPath b = [(b - (7 + zonesPerBlock)) % zonesPerBlock,
            (b - (7 + zonesPerBlock)) / zonesPerBlock]
        ∧ (b - (7 + zonesPerBlock)) % zonesPerBlock < zonesPerBlock
        ∧ (b - (7 + zonesPerBlock)) / zonesPerBlock < zonesPerBlock ∧ 7 + zonesPerBlock ≤ b) := by
  unfold zoneSlot blockPath
  by_cases h1 : b ≤ 6
  · exact Or.inl ⟨h1, by rw [if_pos h1], by rw [if_pos h1]⟩
  · by_cases h2 : b < 7 + zonesPerBlock
    · refine Or.inr (Or.inl ⟨?_, ?_, ?_, ?_⟩)
      · rw [if_neg h1, if_pos h2]
      · rw [if_neg h1, if_pos h2]
      all_goals omega
    · refine Or.inr (Or.inr ⟨?_, ?_, ?_, ?_, ?_⟩)
      · rw [if_neg h1, if_neg h2]
      · rw [if_neg h1, if_neg h2]
      all_goals unfold zonesPerBlock at *; omega

/-- The slot of a block is one of the slots with no further level below. -/
theorem blockSlot (hb : b < 2 ^ 16) :
    IsSlot (zoneSlot b) (blockPath b) ∧ (blockPath b).length = zoneSlot b - 6 := by
  rcases blockPath_cases hb with ⟨h0, h1, h2⟩ | ⟨h1, h2, h3, _⟩ | ⟨h1, h2, h3, h4, _⟩
  · rw [h2]
    refine ⟨⟨by omega, Nat.zero_le _, by simp⟩, ?_⟩
    simp only [List.length_nil]
    omega
  · rw [h1, h2]
    exact ⟨⟨by omega, Nat.le_refl _, by simpa using h3⟩, rfl⟩
  · rw [h1, h2]
    exact ⟨⟨by omega, Nat.le_refl _, by simpa using ⟨h3, h4⟩⟩, rfl⟩

variable {q : List Nat} {has' : Nat × List Nat → Bool}

theorem IsSlot.suffix (h : IsSlot k p) (hq : q <:+ p) : IsSlot k q :=
  ⟨h.1, Nat.le_trans hq.length_le h.2.1, fun j hj => h.2.2 j (hq.subset hj)⟩

theorem spine_isSlot (hb : b < 2 ^ 16) : ∀ s ∈ spine b, IsSlot s.1 s.2 := by
  intro s hs
  obtain ⟨q, hq, rfl⟩ := List.mem_map.mp hs
  exact (blockSlot hb).1.suffix ((List.mem_tails _ _).mp (List.mem_reverse.mp hq))

/-- A slot belongs to one block. -/
theorem blockSlot_inj {c : Nat} (hb : b < 2 ^ 16) (hc : c < 2 ^ 16)
    (h1 : zoneSlot b = zoneSlot c) (h2 : blockPath b = blockPath c) : b = c := by
  rcases blockPath_cases hb with ⟨h3, h4, h5⟩ | ⟨h4, h5, h6, h7⟩ | ⟨h4, h5, h6, h7, h8⟩ <;>
    rcases blockPath_cases hc with ⟨g3, g4, g5⟩ | ⟨g4, g5, g6, g7⟩ | ⟨g4, g5, g6, g7, g8⟩ <;>
    rw [h4, g4] at h1 <;> rw [h5, g5] at h2
  case inl.inl => exact h1
  case inr.inl.inr.inl =>
    have := List.head_eq_of_cons_eq h2
    omega
  case inr.inr.inr.inr =>
    have e1 := List.head_eq_of_cons_eq h2
    have e2 := List.head_eq_of_cons_eq (List.tail_eq_of_cons_eq h2)
    have m1 := Nat.div_add_mod (b - (7 + zonesPerBlock)) zonesPerBlock
    have m2 := Nat.div_add_mod (c - (7 + zonesPerBlock)) zonesPerBlock
    rw [e2] at m1
    omega
  all_goals omega

/-! ## Clean extensions -/

variable {has : Nat × List Nat → Bool} {s : Nat × List Nat} {slots : List (Nat × List Nat)}
  {free : List Nat}

theorem clean_filled (h : has s = true) : Clean d has (s :: slots) free ↔ Clean d has slots free := by
  rw [Clean.eq_def]
  simp only [if_pos h]

theorem clean_full (h : has s = false) : Clean d has (s :: slots) [] := by
  rw [Clean, if_neg (by simp [h])]
  trivial

theorem clean_take (h : has s = false) : Clean d has (s :: slots) (z :: free) ↔
    (s.2.length < s.1 - 6 → Clear d z) ∧ Clean d (Function.update has s true) slots free := by
  rw [Clean, if_neg (by simp [h])]

/-- Only the slots in question and the free zones count. -/
theorem Clean.congr : ∀ {slots : List (Nat × List Nat)} {has has' : Nat × List Nat → Bool}
    {free : List Nat}, Clean d has slots free → (∀ s ∈ slots, has' s = has s) →
    (∀ z ∈ free, d' z = d z) → Clean d' has' slots free
  | [], _, _, _, _, _, _ => trivial
  | s :: slots, has, has', free, hc, hs, hd => by
    have hself := hs s (List.mem_cons_self ..)
    have hrest : ∀ t ∈ slots, has' t = has t := fun t ht => hs t (List.mem_cons_of_mem _ ht)
    cases hh : has s with
    | true =>
      rw [hh] at hself
      rw [clean_filled hh] at hc
      rw [clean_filled hself]
      exact hc.congr hrest hd
    | false =>
      rw [hh] at hself
      cases free with
      | nil => exact clean_full hself
      | cons z free =>
        rw [clean_take hh] at hc
        rw [clean_take hself]
        refine ⟨fun hlt j hj => ?_, hc.2.congr (fun t ht => ?_) fun w hw =>
          hd w (List.mem_cons_of_mem _ hw)⟩
        · rw [hd z (List.mem_cons_self ..)]
          exact hc.1 hlt j hj
        · by_cases hts : t = s
          · rw [hts, Function.update_self, Function.update_self]
          · rw [Function.update_of_ne hts, Function.update_of_ne hts, hrest t ht]

/-- On a volume whose free zones are clear every extension is clean. -/
theorem clean_of_clear : ∀ {slots : List (Nat × List Nat)} {has : Nat × List Nat → Bool}
    {free : List Nat}, (∀ z ∈ free, Clear d z) → Clean d has slots free
  | [], _, _, _ => trivial
  | s :: slots, has, free, h => by
    cases hh : has s with
    | true => exact (clean_filled hh).mpr (clean_of_clear h)
    | false =>
      cases free with
      | nil => exact clean_full hh
      | cons z free =>
        exact (clean_take hh).mpr ⟨fun _ => h z (List.mem_cons_self ..),
          clean_of_clear fun w hw => h w (List.mem_cons_of_mem _ hw)⟩

/-- An extension by direct blocks takes no indirect zone. -/
theorem clean_of_direct : ∀ {slots : List (Nat × List Nat)} {has : Nat × List Nat → Bool}
    {free : List Nat}, (∀ s ∈ slots, s.1 ≤ 6) → Clean d has slots free
  | [], _, _, _ => trivial
  | s :: slots, has, free, h => by
    have hrest : ∀ t ∈ slots, t.1 ≤ 6 := fun t ht => h t (List.mem_cons_of_mem _ ht)
    have hs := h s (List.mem_cons_self ..)
    cases hh : has s with
    | true => exact (clean_filled hh).mpr (clean_of_direct hrest)
    | false =>
      cases free with
      | nil => exact clean_full hh
      | cons z free =>
        exact (clean_take hh).mpr ⟨fun hlt => by omega, clean_of_direct hrest⟩

/-- Free zones hold what they held before the extension. -/
theorem Ext.free_zone (he : Ext sb A f n d₀ d ino) (hl : sb.Layout) (hn : A n)
    (hz : z ∈ freeZones sb d) : d z = d₀ z := by
  obtain ⟨h1, h2, h3⟩ := mem_freeZones.mp hz
  have hpos := hl.first_pos
  refine he.same h1 fun k p hs _ h => ?_
  have := (he.zones.marked_self hn hs (by omega)).2
  rw [h, h3] at this
  cases this

/-- The first slot to fill, if it is empty, gets a clear zone if it needs one. -/
theorem Clean.clearFirst (he : Ext sb A f n d₀ d ino) (hl : sb.Layout) (hn : A n)
    (hc : Clean d₀ (hasZone d ino) ((k, p) :: slots) (freeZones sb d))
    (h0 : zoneOf d ino k p = 0) : ClearFirst sb d k p := by
  intro hlt z hz j hj
  have hno : hasZone d ino (k, p) = false := by
    unfold hasZone
    rw [h0]
    rfl
  obtain ⟨free, hfree⟩ : ∃ free, freeZones sb d = z :: free := by
    cases hf : freeZones sb d with
    | nil =>
      rw [hf] at hz
      cases hz
    | cons w free =>
      rw [hf, List.head?_cons, Option.some.injEq] at hz
      exact ⟨free, by rw [hz]⟩
  rw [he.free_zone hl hn (z := z) (by rw [hfree]; exact List.mem_cons_self ..)]
  rw [hfree, clean_take hno] at hc
  exact hc.1 hlt j hj

/-- A slot is filled, and the extension goes on with the others. -/
theorem Filled.clean (h : Filled sb A f n d₀ d ino k p d' ino' r) (hr : r ≠ 0)
    (hs : ∀ s ∈ slots, IsSlot s.1 s.2)
    (hc : Clean d₀ (hasZone d ino) ((k, p) :: slots) (freeZones sb d)) :
    Clean d₀ (hasZone d' ino') slots (freeZones sb d') := by
  have hval := h.val
  by_cases h0 : zoneOf d ino k p = 0
  · have hno : hasZone d ino (k, p) = false := by
      unfold hasZone
      rw [h0]
      rfl
    rw [h.took h0 hr, clean_take hno] at hc
    refine hc.2.congr (fun s hss => ?_) fun _ _ => rfl
    by_cases hsk : s = (k, p)
    · rw [hsk]
      unfold hasZone
      rw [hval]
      simpa using hr
    · rw [Function.update_of_ne hsk]
      unfold hasZone
      rw [h.slots s.1 s.2 (hs s hss) fun h1 h2 => hsk (by rw [← h1, h2])]
  · have hyes : hasZone d ino (k, p) = true := by
      unfold hasZone
      simpa using h0
    obtain ⟨h1, h2⟩ := h.kept h0
    rw [clean_filled hyes] at hc
    rw [h2]
    rw [h2] at hval
    refine hc.congr (fun s hss => ?_) fun _ _ => rfl
    unfold hasZone
    by_cases hsk : s = (k, p)
    · rw [hsk, hval, h1]
    · have := h.slots s.1 s.2 (hs s hss) fun h1 h2 => hsk (by rw [← h1, h2])
      rw [h2] at this
      rw [this]

/-! ## Counting the zones -/

/-- The number of slots among `slots` that have no zone. -/
def missing (has : Nat × List Nat → Bool) (slots : List (Nat × List Nat)) : Nat :=
  (slots.toFinset.filter fun s => has s = false).card

theorem missing_one (has : Nat × List Nat → Bool) (s : Nat × List Nat) :
    missing has [s] = if has s then 0 else 1 := by
  unfold missing
  rw [List.toFinset_cons, List.toFinset_nil, insert_empty_eq, Finset.filter_singleton]
  cases has s <;> rfl

theorem missing_mono (has : Nat × List Nat → Bool)
    (h : ∀ s ∈ slots, s ∈ slots') : missing has slots ≤ missing has slots' := by
  refine Finset.card_le_card (Finset.filter_subset_filter _ fun s hs => ?_)
  exact List.mem_toFinset.mpr (h s (List.mem_toFinset.mp hs))

theorem missing_congr (h : ∀ s ∈ slots, has' s = has s) : missing has' slots = missing has slots := by
  unfold missing
  refine congrArg Finset.card (Finset.filter_congr fun s hs => ?_)
  rw [h s (List.mem_toFinset.mp hs)]

/-- Slots that are filled in two parts: the second part lacks what the first did not fill. -/
theorem missing_append
    (h : ∀ s ∈ slots', has' s = (has s || decide (s ∈ slots))) :
    missing has (slots ++ slots') = missing has slots + missing has' slots' := by
  have hsplit : ((slots ++ slots').toFinset.filter fun s => has s = false)
      = (slots.toFinset.filter fun s => has s = false)
        ∪ (slots'.toFinset.filter fun s => has' s = false) := by
    ext s
    simp only [Finset.mem_filter, Finset.mem_union, List.mem_toFinset, List.mem_append]
    constructor
    · rintro ⟨hs, hf⟩
      by_cases hmem : s ∈ slots
      · exact Or.inl ⟨hmem, hf⟩
      · have hs' := hs.resolve_left hmem
        refine Or.inr ⟨hs', ?_⟩
        rw [h s hs', hf, decide_eq_false hmem]
        rfl
    · rintro (⟨hs, hf⟩ | ⟨hs, hf⟩)
      · exact ⟨Or.inl hs, hf⟩
      · rw [h s hs, Bool.or_eq_false_iff] at hf
        exact ⟨Or.inr hs, hf.1⟩
  unfold missing
  rw [hsplit, Finset.card_union_of_disjoint]
  refine Finset.disjoint_left.mpr fun s h1 h2 => ?_
  obtain ⟨hs, _⟩ := Finset.mem_filter.mp h1
  obtain ⟨hs', hf⟩ := Finset.mem_filter.mp h2
  rw [h s (List.mem_toFinset.mp hs'), decide_eq_true (List.mem_toFinset.mp hs), Bool.or_true] at hf
  cases hf

/-- Of `a` zones the first part takes what it needs, and the `b` that are left are too few. -/
theorem missing_append_lt {a : Nat}
    (h : ∀ s ∈ slots', has' s = (has s || decide (s ∈ slots))) (ha : a = b + missing has slots)
    (hb : b < missing has' slots') : a < missing has (slots ++ slots') := by
  rw [missing_append h]
  omega

/-- The zones that filling `slots` takes, and where they are. -/
structure Takes (sb : Superblock) (d : Disk) (ino : Bytes) (slots : List (Nat × List Nat)) (ok : Bool)
    (d' : Disk) (ino' : Bytes) : Prop where
  /-- No other slot changes. -/
  only : ∀ {s}, IsSlot s.1 s.2 → s ∉ slots → zoneOf d' ino' s.1 s.2 = zoneOf d ino s.1 s.2
  /-- Every empty slot takes one zone. -/
  cost : ok = true →
    (freeZones sb d).length = (freeZones sb d').length + missing (hasZone d ino) slots
  /-- If it fails, there were too few of them. -/
  lack : ok = false → bitAt d sb.zmapStart 0 = true →
    (freeZones sb d).length < missing (hasZone d ino) slots
  free : ∀ {z}, z ∈ freeZones sb d' → z ∈ freeZones sb d
  /-- A zone that gets marked was free, and is in one of the slots. -/
  held : ∀ {z}, sb.IsZone z → zmapBit sb d' z = true →
    zmapBit sb d z = true ∨ z ∈ freeZones sb d ∧ ∃ s ∈ slots, zoneOf d' ino' s.1 s.2 = z
  /-- An empty slot gets a zone exactly if those before it leave one. -/
  order : bitAt d sb.zmapStart 0 = true → ∀ {pre s post}, slots = pre ++ s :: post → s ∉ pre →
    IsSlot s.1 s.2 → zoneOf d ino s.1 s.2 = 0 → (zoneOf d' ino' s.1 s.2 ≠ 0 ↔
      missing (hasZone d ino) pre < (freeZones sb d).length)
  fresh : ∀ {s}, s ∈ slots → IsSlot s.1 s.2 → zoneOf d ino s.1 s.2 = 0 → zoneOf d' ino' s.1 s.2 ≠ 0 →
    zoneOf d' ino' s.1 s.2 ∈ freeZones sb d

theorem Takes.nil : Takes sb d ino [] true d ino :=
  ⟨fun _ _ => rfl, fun _ => rfl, fun h => absurd h (by simp), id, fun _ h => Or.inl h,
    fun _ _ _ _ h => absurd h (by simp), fun h => absurd h (by simp)⟩

/-- A member of two parts is in the first, or behind all of it. -/
theorem split_append {α : Type*} {l l' pre post : List α} {x : α} (h : l ++ l' = pre ++ x :: post) :
    (∃ post', l = pre ++ x :: post') ∨ ∃ pre', pre = l ++ pre' ∧ l' = pre' ++ x :: post := by
  rcases List.append_eq_append_iff.mp h with ⟨part, rfl, hpart⟩ | ⟨part, rfl, hpart⟩
  · exact .inr ⟨part, rfl, hpart⟩
  · cases part with
    | nil => exact .inr ⟨[], by simp, hpart.symm⟩
    | cons y part =>
      obtain ⟨rfl, -⟩ := List.cons.inj hpart
      exact .inl ⟨part, rfl⟩

theorem hasZone_eq_false : hasZone d ino s = false ↔ zoneOf d ino s.1 s.2 = 0 := by
  unfold hasZone
  simp

theorem hasZone_eq_true : hasZone d ino s = true ↔ zoneOf d ino s.1 s.2 ≠ 0 := by
  unfold hasZone
  simp

/-- One slot. -/
theorem Filled.takes (hl : sb.Layout) (h : Filled sb A f n d₀ d ino k p d' ino' r) :
    Takes sb d ino [(k, p)] (decide (r ≠ 0)) d' ino' := by
  refine ⟨fun {s} hs hmem => ?_, fun hok => ?_, fun hok hb => ?_, fun {z} hz => ?_,
    fun {z} hz hm => ?_, fun hb {pre s post} heq _ _ h0 => ?_, fun {s} hmem _ h0 hr => ?_⟩
  · refine h.slots s.1 s.2 hs fun h1 h2 => hmem ?_
    rw [h2, ← h1]
    exact List.mem_singleton.mpr rfl
  · have hr : r ≠ 0 := of_decide_eq_true hok
    rw [missing_one]
    by_cases h0 : zoneOf d ino k p = 0
    · rw [h.took h0 hr, hasZone_eq_false.mpr h0]
      rfl
    · rw [(h.kept h0).2, hasZone_eq_true.mpr h0]
      rfl
  · have hr : r = 0 := Decidable.not_not.mp (of_decide_eq_false hok)
    have h0 : zoneOf d ino k p = 0 := by
      by_contra h0
      exact h0 ((h.kept h0).1.symm.trans hr)
    rw [missing_one, (h.full hb).2 hr, hasZone_eq_false.mpr h0]
    decide
  · by_cases hr : r = 0
    · rw [← h.fail hr]
      exact hz
    · by_cases h0 : zoneOf d ino k p = 0
      · rw [h.took h0 hr]
        exact List.mem_cons_of_mem _ hz
      · rw [← (h.kept h0).2]
        exact hz
  · rcases h.mark hz hm with hm' | rfl
    · exact Or.inl hm'
    · by_cases h0 : zoneOf d ino k p = 0
      · have hpos := hl.first_pos
        have hr : z ≠ 0 := fun h => by have := hz.1; omega
        refine Or.inr ⟨?_, (k, p), List.mem_singleton.mpr rfl, h.val⟩
        rw [h.took h0 hr]
        exact List.mem_cons_self ..
      · rw [(h.kept h0).2] at hm
        exact Or.inl hm
  · cases pre with
    | cons _ pre => exact absurd (List.cons.inj heq).2 (by simp)
    | nil =>
      obtain ⟨rfl, -⟩ := List.cons.inj heq
      rw [h.val]
      constructor
      · intro hr
        rw [h.took h0 hr]
        exact Nat.succ_pos _
      · rintro hpos rfl
        rw [(h.full hb).2 rfl] at hpos
        exact absurd hpos (Nat.not_lt_zero _)
  · obtain rfl := List.mem_singleton.mp hmem
    rw [h.val] at hr ⊢
    rw [h.took h0 hr]
    exact List.mem_cons_self ..

/-- Slots filled one part after the other. -/
theorem Takes.append
    (h : Takes sb d ino slots true d' ino') (hg : Takes sb d' ino' slots' ok d'' ino'')
    (hb : bitAt d sb.zmapStart 0 = true → bitAt d' sb.zmapStart 0 = true)
    (hs' : ∀ s ∈ slots', IsSlot s.1 s.2) (hgot : ∀ s ∈ slots, zoneOf d' ino' s.1 s.2 ≠ 0)
    (hkeep : ∀ s ∈ slots, zoneOf d'' ino'' s.1 s.2 = zoneOf d' ino' s.1 s.2) :
    Takes sb d ino (slots ++ slots') ok d'' ino'' := by
  have hsum : ∀ {part}, (∀ s ∈ part, s ∈ slots') → missing (hasZone d ino) (slots ++ part)
      = missing (hasZone d ino) slots + missing (hasZone d' ino') part := by
    refine fun hpart => missing_append fun s hs => ?_
    replace hs := hpart s hs
    by_cases hmem : s ∈ slots
    · rw [decide_eq_true hmem, Bool.or_true]
      exact hasZone_eq_true.mpr (hgot s hmem)
    · rw [decide_eq_false hmem, Bool.or_false]
      unfold hasZone
      rw [h.only (hs' s hs) hmem]
  have hcost := h.cost rfl
  refine ⟨fun hs hmem => ?_, fun hok => ?_, fun hok h0 => ?_, fun hz => h.free (hg.free hz),
    fun hz hm => ?_, fun h0 {pre s post} heq hpre hs hs0 => ?_, fun {s} hmem hs hs0 hne => ?_⟩
  · rw [List.mem_append, not_or] at hmem
    rw [hg.only hs hmem.2, h.only hs hmem.1]
  · rw [hcost, hg.cost hok, hsum fun _ => id]
    omega
  · have h2 := hg.lack hok (hb h0)
    rw [hsum fun _ => id]
    omega
  · rcases hg.held hz hm with hm | ⟨hf, s, hs, hz⟩
    · rcases h.held hz hm with hm | ⟨hf, s, hs, hz⟩
      · exact Or.inl hm
      · exact Or.inr ⟨hf, s, List.mem_append_left _ hs, (hkeep s hs).trans hz⟩
    · exact Or.inr ⟨h.free hf, s, List.mem_append_right _ hs, hz⟩
  · rcases split_append heq with ⟨post', hslots⟩ | ⟨part, rfl, hpart⟩
    · rw [hkeep s (by rw [hslots]; simp)]
      exact h.order h0 hslots hpre hs hs0
    · rw [hg.order (hb h0) hpart (fun hs => hpre (List.mem_append_right _ hs)) hs
        (by rw [h.only hs fun hs => hpre (List.mem_append_left _ hs)]; exact hs0),
        hsum fun t ht => by rw [hpart]; exact List.mem_append_left _ ht]
      omega
  · by_cases hin : s ∈ slots
    · rw [hkeep s hin] at hne ⊢
      exact h.fresh hin hs hs0 hne
    · exact h.free (hg.fresh ((List.mem_append.mp hmem).resolve_left hin) hs
        (by rw [h.only hs hin]; exact hs0) hne)

/-- More slots were to be filled after the failure. -/
theorem Takes.failed (h : Takes sb d ino slots false d' ino') (hss : slots <+: slots') :
    Takes sb d ino slots' false d' ino' := by
  refine ⟨fun hs hmem => h.only hs fun hs => hmem (hss.subset hs), fun hok => absurd hok (by simp),
    fun _ hb => Nat.lt_of_lt_of_le (h.lack rfl hb) (missing_mono _ hss.subset), h.free,
    fun hz hm => ?_, fun hb {pre s post} heq hpre hs h0 => ?_, fun {s} _ hs h0 hne => ?_⟩
  · exact (h.held hz hm).imp_right fun ⟨hf, s, hs, hz⟩ => ⟨hf, s, hss.subset hs, hz⟩
  · obtain ⟨more, rfl⟩ := hss
    rcases split_append heq with ⟨post', hslots⟩ | ⟨part, rfl, -⟩
    · exact h.order hb hslots hpre hs h0
    · -- a slot that was not come to: those before it lack zones already
      rw [h.only hs fun hs => hpre (List.mem_append_left _ hs)]
      exact iff_of_false (fun hne => hne h0) (Nat.not_lt.mpr (Nat.le_of_lt
        (Nat.lt_of_lt_of_le (h.lack rfl hb) (missing_mono _ fun t ht => List.mem_append_left _ ht))))
  · refine h.fresh (by_contra fun hin => hne ?_) hs h0 hne
    rw [h.only hs hin, h0]

/-! ## One block -/

/-- What filling `slots` one after the other comes to; `rest` are slots to be filled later. -/
structure Grown (sb : Superblock) (A : Nat → Prop) (f : Nat → Bytes) (n : Nat) (d₀ d : Disk)
    (ino : Bytes) (slots rest : List (Nat × List Nat)) (ok : Bool) (d' : Disk) (ino' : Bytes) :
    Prop where
  ext : Ext sb A f n d₀ d' ino'
  keep : ∀ {l q}, IsSlot l q → zoneOf d ino l q ≠ 0 → zoneOf d' ino' l q = zoneOf d ino l q
  got : ok = true → ∀ s ∈ slots, zoneOf d' ino' s.1 s.2 ≠ 0
  clean : ok = true → Clean d₀ (hasZone d' ino') rest (freeZones sb d')
  /-- On a map with bit 0 set an extension fails only when no zone is left. -/
  full : bitAt d sb.zmapStart 0 = true →
    bitAt d' sb.zmapStart 0 = true ∧ (ok = false → freeZones sb d' = [])
  takes : Takes sb d ino slots ok d' ino'

variable {rest slots' : List (Nat × List Nat)} {ok : Bool} {r : Nat}

theorem Grown.nil (he : Ext sb A f n d₀ d ino)
    (hc : Clean d₀ (hasZone d ino) rest (freeZones sb d)) :
    Grown sb A f n d₀ d ino [] rest true d ino :=
  ⟨he, fun _ _ => rfl, fun _ _ hs => absurd hs (by simp), fun _ => hc,
    fun hb => ⟨hb, fun h => absurd h (by simp)⟩, Takes.nil⟩

theorem Filled.keep (h : Filled sb A f n d₀ d ino k p d' ino' r) {l : Nat}
    (hq : IsSlot l q) (h0 : zoneOf d ino l q ≠ 0) : zoneOf d' ino' l q = zoneOf d ino l q := by
  by_cases hc : l = k ∧ p = q
  · obtain ⟨rfl, rfl⟩ := hc
    rw [h.val, (h.kept h0).1]
  · exact h.slots l q hq fun h1 h2 => hc ⟨h1, h2⟩

theorem Filled.grown (hl : sb.Layout) (h : Filled sb A f n d₀ d ino k p d' ino' r) (hs : IsSlot k p) (hr : r ≠ 0)
    (hss : ∀ s ∈ slots, IsSlot s.1 s.2)
    (hg : Grown sb A f n d₀ d' ino' slots rest ok d'' ino'') :
    Grown sb A f n d₀ d ino ((k, p) :: slots) rest ok d'' ino'' := by
  refine ⟨hg.ext, fun hq h0 => ?_, fun hok s hmem => ?_, hg.clean, fun hb => ?_, ?_⟩
  · have h1 := h.keep hq h0
    rw [hg.keep hq (by rw [h1]; exact h0), h1]
  · rcases List.mem_cons.mp hmem with rfl | hmem
    · rw [hg.keep hs (by rw [h.val]; exact hr), h.val]
      exact hr
    · exact hg.got hok s hmem
  · exact hg.full (h.full hb).1
  · have hone := h.takes hl
    rw [decide_eq_true hr] at hone
    refine hone.append hg.takes (fun hb => (h.full hb).1) hss (fun s hmem => ?_) fun s hmem => ?_ <;>
      rw [List.mem_singleton.mp hmem]
    · rw [h.val]
      exact hr
    · exact hg.keep hs (by rw [h.val]; exact hr)

theorem Filled.failed (hl : sb.Layout) (h : Filled sb A f n d₀ d ino k p d' ino' r) (hr : r = 0) :
    Grown sb A f n d₀ d ino ((k, p) :: slots) rest false d' ino' := by
  refine ⟨h.ext, h.keep, fun hok => absurd hok (by simp), fun hok => absurd hok (by simp),
    fun hb => ⟨(h.full hb).1, fun _ => ?_⟩, ?_⟩
  · rw [h.fail hr]
    exact (h.full hb).2 hr
  · have hone := h.takes hl
    rw [decide_eq_false (by simpa using hr)] at hone
    exact hone.failed ⟨slots, rfl⟩

theorem Grown.append (h : Grown sb A f n d₀ d ino slots (slots' ++ rest) true d' ino')
    (hs : ∀ s ∈ slots, IsSlot s.1 s.2) (hs' : ∀ s ∈ slots', IsSlot s.1 s.2)
    (hg : Grown sb A f n d₀ d' ino' slots' rest ok d'' ino'') :
    Grown sb A f n d₀ d ino (slots ++ slots') rest ok d'' ino'' := by
  refine ⟨hg.ext, fun hq h0 => ?_, fun hok s hmem => ?_, hg.clean, fun hb => ?_,
    h.takes.append hg.takes (fun hb => (h.full hb).1) hs' (h.got rfl) fun s hmem =>
      hg.keep (hs s hmem) (h.got rfl s hmem)⟩
  · have h1 := h.keep hq h0
    rw [hg.keep hq (by rw [h1]; exact h0), h1]
  · rcases List.mem_append.mp hmem with hmem | hmem
    · have h1 := h.got rfl s hmem
      rw [hg.keep (hs s hmem) h1]
      exact h1
    · exact hg.got hok s hmem
  · exact hg.full (h.full hb).1

theorem Grown.failed (h : Grown sb A f n d₀ d ino slots rest false d' ino')
    (hss : slots <+: slots') (rest' : List (Nat × List Nat)) :
    Grown sb A f n d₀ d ino slots' rest' false d' ino' :=
  ⟨h.ext, h.keep, fun hok => absurd hok (by simp), fun hok => absurd hok (by simp),
    h.full, h.takes.failed hss⟩

/-- The slot of `i_zone` comes first. -/
theorem fillRoot_step (hl : sb.Layout) (hz : sb.sZones ≤ 2 ^ 16) (hn : A n)
    (he : Ext sb A f n d₀ d ino) (hk : k ≤ 8) (hs : ∀ s ∈ slots, IsSlot s.1 s.2)
    (hc : Clean d₀ (hasZone d ino) ((k, []) :: slots) (freeZones sb d)) :
    Filled sb A f n d₀ d ino k [] (fillRoot sb d ino k).1 (fillRoot sb d ino k).2
        (iZone (fillRoot sb d ino k).2 k)
      ∧ (iZone (fillRoot sb d ino k).2 k ≠ 0 →
          Clean d₀ (hasZone (fillRoot sb d ino k).1 (fillRoot sb d ino k).2) slots
            (freeZones sb (fillRoot sb d ino k).1)) := by
  have hfill := fillRoot_filled hl hz hn he hk (hc.clearFirst he hl hn)
  exact ⟨hfill, fun hr => hfill.clean hr hs hc⟩

/-- A word of an indirect zone follows. -/
theorem fillWord_step (hl : sb.Layout) (hz : sb.sZones ≤ 2 ^ 16) (hn : A n)
    (he : Ext sb A f n d₀ d ino) {j w : Nat} (hj : IsSlot k (j :: q))
    (hw : zoneOf d ino k q = w) (hw0 : w ≠ 0) (hs : ∀ s ∈ slots, IsSlot s.1 s.2)
    (hc : Clean d₀ (hasZone d ino) ((k, j :: q) :: slots) (freeZones sb d)) :
    Filled sb A f n d₀ d ino k (j :: q) (fillWord sb d w j).2 ino (fillWord sb d w j).1
      ∧ ((fillWord sb d w j).1 ≠ 0 →
          Clean d₀ (hasZone (fillWord sb d w j).2 ino) slots
            (freeZones sb (fillWord sb d w j).2)) := by
  have hfill := fillWord_filled hl hz hn he hj hw hw0 (hc.clearFirst he hl hn)
  exact ⟨hfill, fun hr => hfill.clean hr hs hc⟩

/-- **One round of `extend_zone` fills the slots on the way to a block.** -/
theorem extendBlock_grown (hl : sb.Layout) (hz : sb.sZones ≤ 2 ^ 16) (hn : A n)
    (he : Ext sb A f n d₀ d ino) (hb : b < 2 ^ 16) (hrest : ∀ s ∈ rest, IsSlot s.1 s.2)
    (hc : Clean d₀ (hasZone d ino) (spine b ++ rest) (freeZones sb d)) :
    Grown sb A f n d₀ d ino (spine b) rest (extendBlock sb d ino b).1
      (extendBlock sb d ino b).2.1 (extendBlock sb d ino b).2.2 := by
  have hslots := spine_isSlot hb
  unfold extendBlock
  rcases blockPath_cases hb with ⟨h0, h1, h2⟩ | ⟨h1, h2, _, _⟩ | ⟨h1, h2, _, _, _⟩
  · have hsp : spine b = [(b, [])] := by
      unfold spine
      rw [h1, h2]
      rfl
    rw [hsp] at hslots hc ⊢
    obtain ⟨hfill, hnext⟩ := fillRoot_step hl hz hn he (by omega) hrest hc
    simp only [h1]
    generalize fillRoot sb d ino b = q at hfill hnext ⊢
    obtain ⟨d1, ino1⟩ := q
    by_cases hr : iZone ino1 b = 0
    · rw [if_pos hr]
      exact hfill.failed hl hr
    · rw [if_neg hr, if_neg (by omega), if_neg (by omega)]
      exact hfill.grown hl (hslots _ (List.mem_cons_self ..)) hr (by simp)
        (Grown.nil hfill.ext (hnext hr))
  · have hsp : spine b = [(7, []), (7, [b - 7])] := by
      unfold spine
      rw [h1, h2]
      rfl
    rw [hsp] at hslots hc ⊢
    have hs0 := hslots (7, []) (by simp)
    have hs1 := hslots (7, [b - 7]) (by simp)
    obtain ⟨hfill, hnext⟩ := fillRoot_step hl hz hn he (by omega) (by
      intro s hs
      rcases List.mem_cons.mp hs with rfl | hs
      · exact hs1
      · exact hrest s hs) hc
    simp only [h1]
    generalize fillRoot sb d ino 7 = q at hfill hnext ⊢
    obtain ⟨d1, ino1⟩ := q
    by_cases hr : iZone ino1 7 = 0
    · rw [if_pos hr]
      exact hfill.failed hl hr
    · rw [if_neg hr, if_pos trivial]
      obtain ⟨hfill1, hnext1⟩ := fillWord_step hl hz hn hfill.ext hs1 hfill.val hr hrest (hnext hr)
      refine hfill.grown hl hs0 hr (fun s hs => hslots s (List.mem_cons_of_mem _ hs)) ?_
      generalize fillWord sb d1 (iZone ino1 7) (b - 7) = q at hfill1 hnext1 ⊢
      obtain ⟨z, d2⟩ := q
      by_cases hz0 : z = 0
      · simp only [hz0, ne_eq, not_true, decide_false]
        exact hfill1.failed hl hz0
      · simp only [hz0, ne_eq, not_false_iff, decide_true]
        exact hfill1.grown hl hs1 hz0 (by simp) (Grown.nil hfill1.ext (hnext1 hz0))
  · have hsp : spine b = [(8, []), (8, [(b - (7 + zonesPerBlock)) / zonesPerBlock]),
        (8, [(b - (7 + zonesPerBlock)) % zonesPerBlock,
          (b - (7 + zonesPerBlock)) / zonesPerBlock])] := by
      unfold spine
      rw [h1, h2]
      rfl
    rw [hsp] at hslots hc ⊢
    generalize (b - (7 + zonesPerBlock)) / zonesPerBlock = i at hslots hc ⊢
    generalize (b - (7 + zonesPerBlock)) % zonesPerBlock = j at hslots hc ⊢
    have hs0 := hslots (8, []) (by simp)
    have hs1 := hslots (8, [i]) (by simp)
    have hs2 := hslots (8, [j, i]) (by simp)
    have hrest2 : ∀ s ∈ (8, [j, i]) :: rest, IsSlot s.1 s.2 := by
      intro s hs
      rcases List.mem_cons.mp hs with rfl | hs
      · exact hs2
      · exact hrest s hs
    obtain ⟨hfill, hnext⟩ := fillRoot_step hl hz hn he (by omega) (by
      intro s hs
      rcases List.mem_cons.mp hs with rfl | hs
      · exact hs1
      · exact hrest2 s hs) hc
    simp only [h1]
    generalize fillRoot sb d ino 8 = q at hfill hnext ⊢
    obtain ⟨d1, ino1⟩ := q
    simp only [] at hfill hnext ⊢
    by_cases hr : iZone ino1 8 = 0
    · rw [if_pos hr]
      exact hfill.failed hl hr
    · rw [if_neg hr, if_neg (by omega), if_pos trivial]
      obtain ⟨hfill1, hnext1⟩ := fillWord_step hl hz hn hfill.ext hs1 hfill.val hr hrest2 (hnext hr)
      refine hfill.grown hl hs0 hr (fun s hs => hslots s (List.mem_cons_of_mem _ hs)) ?_
      generalize fillWord sb d1 (iZone ino1 8) i = q at hfill1 hnext1 ⊢
      obtain ⟨w, d2⟩ := q
      by_cases hw0 : w = 0
      · rw [if_pos hw0]
        exact hfill1.failed hl hw0
      · rw [if_neg hw0]
        obtain ⟨hfill2, hnext2⟩ := fillWord_step hl hz hn hfill1.ext hs2 hfill1.val hw0 hrest
          (hnext1 hw0)
        refine hfill1.grown hl hs1 hw0 (fun s hs => by rw [List.mem_singleton.mp hs]; exact hs2) ?_
        generalize fillWord sb d2 w j = q at hfill2 hnext2 ⊢
        obtain ⟨z, d3⟩ := q
        by_cases hz0 : z = 0
        · simp only [hz0, ne_eq, not_true, decide_false]
          exact hfill2.failed hl hz0
        · simp only [hz0, ne_eq, not_false_iff, decide_true]
          exact hfill2.grown hl hs2 hz0 (by simp) (Grown.nil hfill2.ext (hnext2 hz0))

/-! ## All blocks -/

/-- The slots `extend_zone` visits when a file of `size` bytes shall have `size'`. -/
def extendSlots (size size' : Nat) : List (Nat × List Nat) :=
  (List.range' (extendStart size) (extendStart size' - extendStart size)).flatMap spine

theorem flatMap_spine_isSlot {blocks : List Nat} (h : ∀ b ∈ blocks, b < 2 ^ 16) :
    ∀ s ∈ blocks.flatMap spine, IsSlot s.1 s.2 := by
  intro s hs
  obtain ⟨b, hb, hsb⟩ := List.mem_flatMap.mp hs
  exact spine_isSlot (h b hb) s hsb

theorem extendStart_lt (size : Nat) : extendStart size < 2 ^ 16 := Nat.mod_lt _ (by decide)

theorem extendSlots_isSlot (size size' : Nat) : ∀ s ∈ extendSlots size size', IsSlot s.1 s.2 := by
  refine flatMap_spine_isSlot fun b hb => ?_
  have h1 := List.mem_range'_1.mp hb
  have h2 := extendStart_lt size'
  omega

/-- A file of less than seven blocks has direct blocks only. -/
theorem extendSlots_direct (size : Nat) {size' : Nat} (h : size' < 7 * blockSize) :
    ∀ s ∈ extendSlots size size', s.1 ≤ 6 := by
  intro s hs
  obtain ⟨b, hb, hsb⟩ := List.mem_flatMap.mp hs
  have h1 := List.mem_range'_1.mp hb
  have hb6 : b ≤ 6 := by
    unfold extendStart blockSize at *
    omega
  obtain ⟨p, _, rfl⟩ := List.mem_map.mp hsb
  unfold zoneSlot
  rw [if_pos hb6]
  exact hb6

/-- The loop of `extend_zone`; the size it leaves in a copy that failed is not used. -/
theorem extendLoop_grown (hl : sb.Layout) (hz : sb.sZones ≤ 2 ^ 16) (hn : A n)
    (hrest : ∀ s ∈ rest, IsSlot s.1 s.2) : ∀ (m : Nat) {b : Nat} {d : Disk} {ino : Bytes},
    b + m ≤ 2 ^ 16 → Ext sb A f n d₀ d ino →
    Clean d₀ (hasZone d ino) ((List.range' b m).flatMap spine ++ rest) (freeZones sb d) →
    ∃ ino', Grown sb A f n d₀ d ino ((List.range' b m).flatMap spine) rest
        (extendLoop sb d ino b m).1 (extendLoop sb d ino b m).2.1 ino'
      ∧ ((extendLoop sb d ino b m).1 = true → (extendLoop sb d ino b m).2.2 = ino')
  | 0, _, _, ino, _, he, hc => ⟨ino, Grown.nil he hc, fun _ => rfl⟩
  | m + 1, b, d, ino, hb, he, hc => by
    rw [List.range'_succ, List.flatMap_cons, List.append_assoc] at hc
    have hlater : ∀ s ∈ (List.range' (b + 1) m).flatMap spine, IsSlot s.1 s.2 :=
      flatMap_spine_isSlot fun c hc => by
        have := List.mem_range'_1.mp hc
        omega
    have hg := extendBlock_grown hl hz hn he (by omega) (by
      intro s hs
      rcases List.mem_append.mp hs with hs | hs
      · exact hlater s hs
      · exact hrest s hs) hc
    rw [extendLoop]
    generalize extendBlock sb d ino b = q at hg ⊢
    obtain ⟨ok, d1, ino1⟩ := q
    cases ok with
    | true =>
      obtain ⟨ino', hg', hino⟩ := extendLoop_grown hl hz hn hrest m (by omega) hg.ext
        (hg.clean rfl)
      exact ⟨ino', hg.append (spine_isSlot (by omega)) hlater hg', hino⟩
    | false =>
      exact ⟨ino1, hg.failed (List.prefix_append ..) rest, fun h => absurd h (by simp)⟩

/-- **`extend_zone`** -/
theorem extendZone_grown (hl : sb.Layout) (hz : sb.sZones ≤ 2 ^ 16) (hn : A n)
    (hrest : ∀ s ∈ rest, IsSlot s.1 s.2) (size : Nat) (he : Ext sb A f n d₀ d ino)
    (hc : Clean d₀ (hasZone d ino) (extendSlots (iSize ino) size ++ rest) (freeZones sb d)) :
    ∃ ino', Grown sb A f n d₀ d ino (extendSlots (iSize ino) size) rest
        (extendZone sb d ino size).1 (extendZone sb d ino size).2.1 ino'
      ∧ ((extendZone sb d ino size).1 = true → (extendZone sb d ino size).2.2
          = if extendStart size < extendStart (iSize ino) then ino' else setSize ino' size) := by
  unfold extendSlots at hc ⊢
  unfold extendZone
  by_cases hlt : extendStart size < extendStart (iSize ino)
  · simp only [if_pos hlt]
    rw [show extendStart size - extendStart (iSize ino) = 0 by omega] at hc ⊢
    exact ⟨ino, Grown.nil he hc, fun _ => rfl⟩
  · simp only [if_neg hlt]
    have hstop := extendStart_lt size
    obtain ⟨ino', hg, hino⟩ := extendLoop_grown hl hz hn hrest _ (by omega) he hc
    generalize extendLoop sb d ino (extendStart (iSize ino))
      (extendStart size - extendStart (iSize ino)) = q at hg hino ⊢
    obtain ⟨ok, d1, ino1⟩ := q
    cases ok with
    | true => exact ⟨ino', hg, fun _ => by rw [← hino rfl]⟩
    | false => exact ⟨ino', hg, fun h => absurd h (by simp)⟩

/-! ## Giving up -/

/-- The slots of the inode as it is on disk are slots of the copy in work. -/
theorem Ext.disk (he : Ext sb A f n d₀ d ino) : ∀ {p : List Nat}, IsSlot k p →
    zoneOf d (f n) k p = 0 ∨ zoneOf d (f n) k p = zoneOf d ino k p := by
  intro p
  induction p with
  | nil =>
    intro hs
    by_cases h0 : zoneOf d₀ (f n) k [] = 0
    · exact Or.inl h0
    · exact Or.inr (he.mono hs h0).symm
  | cons j p ih =>
    intro hs
    unfold zoneOf at ih ⊢
    rcases ih hs.up with h0 | h0
    · exact Or.inl (follow_cons_zero h0)
    · right
      rw [follow, follow, h0]

/-- **An extension that is given up leaves the files on disk in order**: the zones it
marked are lost. -/
theorem Ext.zones_disk (he : Ext sb A f n d₀ d ino) : Zones sb d A f := by
  have hsub : ∀ {s : Nat × Nat} {q : List Nat}, (zoneShape A).ok s q →
      follow (zoneRoot f) (zoneMem d) s q = 0 ∨ follow (zoneRoot f) (zoneMem d) s q
        = follow (zoneRoot (Function.update f n ino)) (zoneMem d) s q := by
    intro s q hq
    obtain ⟨m, l⟩ := s
    by_cases hmn : m = n
    · subst hmn
      rw [follow_update, follow_zoneRoot]
      exact he.disk hq.2
    · rw [follow_update_ne _ _ _ hmn, follow_zoneRoot]
      exact Or.inr rfl
  refine he.zones.sub hsub fun hq hne => ?_
  have h := (hsub hq).resolve_left hne
  rw [h] at hne ⊢
  exact he.zones.good hq hne

end Cyanurus
