import Cyanurus.Fs.Volume

/-!
# Creating, loading and destroying inodes

`inode_create` marks an inode and a zone and writes a fresh inode with one block.
`inode_destroy` truncates to nothing, gives back the last zone and the mark. An inode
that is in memory is found by its index in the list `inodes`; as long as every inode in
memory is allocated, a new inode has no object yet, and gets one of its own.
-/

namespace Cyanurus

variable {v v' : Volume} {p n : Nat} {inode : Inode} {d d' : Disk}

/-- `get_inode` finds the inode, or makes an object for it. -/
theorem getInode_cases (hlist : ∀ p, p ∈ v.list ↔ (v.inodes.get p).isSome) (n : Nat) :
    (∃ p inode, v.inodes.get p = some inode ∧ inode.index = n ∧ getInode v n = (p, v))
    ∨ ((∀ p inode, v.inodes.get p = some inode → inode.index ≠ n)
        ∧ getInode v n = (v.inodes.next, { v with
            inodes := v.inodes.alloc ⟨n, 0, 0, 0⟩, list := v.inodes.next :: v.list })) := by
  unfold getInode
  cases hf : v.list.find? (hasIndex v n) with
  | some p =>
    have hp := List.find?_some hf
    unfold hasIndex at hp
    cases hg : v.inodes.get p with
    | none =>
      rw [hg] at hp
      cases hp
    | some inode =>
      rw [hg] at hp
      exact Or.inl ⟨p, inode, hg, by simpa using hp, rfl⟩
  | none =>
    refine Or.inr ⟨fun p inode hp hi => ?_, rfl⟩
    have h := List.find?_eq_none.mp hf p ((hlist p).mpr (by rw [hp]; rfl))
    unfold hasIndex at h
    rw [hp] at h
    exact h (by simpa using hi)

/-! ## A fresh inode -/

/-- The bytes `inode_create` writes, before it has a zone. -/
theorem iZone_setMode_zero (mode k : Nat) : iZone (setMode (fun _ => 0) mode) k = 0 := by
  unfold iZone setMode
  rw [Bytes.load_store_apart _ _ (by unfold Bytes.Apart; omega)]
  exact Bytes.load_zero ..

theorem iSize_setMode_zero (mode : Nat) : iSize (setMode (fun _ => 0) mode) = 0 := by
  unfold iSize setMode
  rw [Bytes.load_store_apart _ _ (by unfold Bytes.Apart; omega)]
  exact Bytes.load_zero ..

/-- `inode_create` fills slot 0 of an empty inode. -/
theorem fillRoot_fresh (sb : Superblock) (d : Disk) (mode : Nat) :
    fillRoot sb d (setMode (fun _ => 0) mode) 0
      = ((markZmap sb d).2, setZone (setMode (fun _ => 0) mode) 0 (markZmap sb d).1) := by
  unfold fillRoot
  rw [if_pos (iZone_setMode_zero mode 0)]

/-- One more inode is marked. -/
theorem allocated_insert {sb : Superblock} (hn : sb.IsInode n)
    (h : ∀ m, sb.IsInode m → imapBit d' m = (imapBit d m || decide (m = n))) :
    Allocated sb d' = fun m => Allocated sb d m ∨ m = n := by
  funext m
  refine propext ⟨fun ha => ?_, fun ha => ?_⟩
  · have := ha.2
    rw [h m ha.1, Bool.or_eq_true, decide_eq_true_iff] at this
    exact this.imp_left fun h2 => ⟨ha.1, h2⟩
  · rcases ha with ha | ha
    · exact ⟨ha.1, by rw [h m ha.1, ha.2]; rfl⟩
    · subst ha
      exact ⟨hn, by rw [h m hn]; simp⟩

/-- What `inode_create` does: nothing to any inode, or a new inode `n` with the zone `z`. -/
inductive Created (v : Volume) (mode : Nat) : Option Nat → Volume → Prop
  | none {d : Disk} : (∀ m, v.sb.IsInode m → imapBit d m = imapBit v.disk m) →
      (∀ b, v.sb.inodeZoneIndex ≤ b → d b = v.disk b) →
      (∀ z, v.sb.IsZone z → zmapBit v.sb d z = zmapBit v.sb v.disk z) →
      (bitAt v.disk v.sb.zmapStart 0 = true → bitAt d v.sb.zmapStart 0 = true) →
      Created v mode none { v with disk := d }
  | made {n z : Nat} {d : Disk} : v.sb.IsInode n → imapBit v.disk n = false → z ≠ 0 →
      (∀ m, v.sb.IsInode m → imapBit d m = (imapBit v.disk m || decide (m = n))) →
      (∀ m, v.sb.IsInode m → m ≠ n → readInode v.sb d m = readInode v.sb v.disk m) →
      (∀ x, x < 64 → readInode v.sb d n x = setZone (setMode (fun _ => 0) mode) 0 z x) →
      (∀ b, v.sb.sFirstdatazone ≤ b → d b = v.disk b) →
      freeZones v.sb v.disk = z :: freeZones v.sb d →
      (∀ z', v.sb.IsZone z' → zmapBit v.sb d z' = (zmapBit v.sb v.disk z' || decide (z' = z))) →
      bitAt d v.sb.zmapStart 0 = bitAt v.disk v.sb.zmapStart 0 →
      Zones v.sb d (Allocated v.sb d) (readInode v.sb d) →
      Created v mode (some v.inodes.next) { v with
        disk := d
        inodes := (v.inodes.alloc ⟨n, 0, 0, 0⟩).modify v.inodes.next fun i => { i with mode := mode }
        list := v.inodes.next :: v.list }

theorem inodeCreate_cases (hv : v.Inv) (mode : Nat) :
    Created v mode (inodeCreate v mode).1 (inodeCreate v mode).2 := by
  have hl := hv.layout
  have hz := hv.small
  have hle := zmapStart_le v.sb
  unfold inodeCreate
  rcases markImap_spec hl v.disk with ⟨d1, hm, hd1, hbits⟩ | ⟨n, d1, hm, hd1, hn, hun, hbits⟩
  · rw [hm]
    refine Created.none hbits (fun b hb => hd1 b (by omega)) (fun z hzz => hd1.zmapBit hl hzz)
      fun h0 => ?_
    rw [bitAt_congr (hd1 _ (Nat.le_add_right ..))]
    exact h0
  · rw [hm]
    have hn0 : n ≠ 0 := by
      have := hn.1
      omega
    simp only [if_neg hn0]
    have hb1 : bitAt d1 v.sb.zmapStart 0 = bitAt v.disk v.sb.zmapStart 0 :=
      bitAt_congr (hd1 _ (Nat.le_add_right ..))
    -- the new inode without its zone
    have hzones1 : Zones v.sb d1 (fun m => Allocated v.sb v.disk m ∨ m = n)
        (Function.update (readInode v.sb v.disk) n (setMode (fun _ => 0) mode)) := by
      refine Zones.insert (hv.zones.transfer (fun _ _ _ _ => rfl) (fun z hzz => hd1.zone hl hzz.1.1)
        fun z hzz => ⟨hzz.1, ?_⟩).2 n fun k _ => iZone_setMode_zero mode k
      rw [hd1.zmapBit hl hzz.1]
      exact hzz.2
    have hfill := fillRoot_filled (k := 0) hl hz (Or.inr rfl) (Ext.refl hzones1 n) (by omega)
      fun _ hlt => absurd hlt (by simp)
    rw [Function.update_self, fillRoot_fresh] at hfill
    rcases markZmap_spec hl hz d1 with ⟨d2, hmz, hd2, hz2, hfull⟩ |
      ⟨z, d2, hmz, hd2, hzone, hlast, hz0, hzun, hbelow, hmarks, hbit⟩
    · rw [hmz]
      obtain ⟨hd3, hb3⟩ := unmarkImap_spec hl d2 hn
      refine Created.none (fun m hmi => ?_) (fun b hb => ?_) (fun z hzz => ?_) fun h0 => ?_
      · rw [hb3 m, hd2.imapBit hl hmi, hbits m hmi]
        by_cases hmn : m = n
        · rw [hmn, hun]
          simp
        · simp [hmn]
      · rw [hd3 b (by omega), hd2 b (Or.inr hb), hd1 b (by omega)]
      · rw [hd3.zmapBit hl hzz, hz2 z hzz, hd1.zmapBit hl hzz]
      · rw [bitAt_congr (hd3 _ (Nat.le_add_right ..)), (hfull (by rw [hb1]; exact h0)).1, hb1]
        exact h0
    · rw [hmz] at hfill ⊢
      simp only [if_neg hz0]
      obtain ⟨ht, hself, hother⟩ := writeInode_spec hl d2 hn (setZone (setMode (fun _ => 0) mode) 0 z)
      have himap : ∀ m, v.sb.IsInode m →
          imapBit (writeInode v.sb d2 n (setZone (setMode (fun _ => 0) mode) 0 z)) m
            = (imapBit v.disk m || decide (m = n)) := by
        intro m hmi
        rw [ht.imapBit hl hmi, hd2.imapBit hl hmi, hbits m hmi]
      have hread : ∀ m, v.sb.IsInode m → m ≠ n →
          readInode v.sb (writeInode v.sb d2 n (setZone (setMode (fun _ => 0) mode) 0 z)) m
            = readInode v.sb v.disk m := by
        intro m hmi hne
        rw [hother m hmi hne, hd2.readInode hl hmi, hd1.readInode hl hmi]
      have hzmap : ∀ z', v.sb.IsZone z' →
          zmapBit v.sb (writeInode v.sb d2 n (setZone (setMode (fun _ => 0) mode) 0 z)) z'
            = (zmapBit v.sb v.disk z' || decide (z' = z)) := by
        intro z' hzz
        rw [ht.zmapBit hl hzz, hmarks z' hzz, hd1.zmapBit hl hzz]
      have hzones2 : Zones v.sb (writeInode v.sb d2 n (setZone (setMode (fun _ => 0) mode) 0 z))
          (fun m => Allocated v.sb v.disk m ∨ m = n)
          (readInode v.sb (writeInode v.sb d2 n (setZone (setMode (fun _ => 0) mode) 0 z))) := by
        refine (hfill.ext.zones.transfer (fun m k hm hk => ?_) (fun z' hz' => ht.zone hz'.1.1)
          fun z' hz' => ⟨hz'.1, by rw [ht.zmapBit hl hz'.1]; exact hz'.2⟩).2
        by_cases hmn : m = n
        · rw [hmn, Function.update_self]
          exact iZone_congr hself (by omega)
        · rw [Function.update_of_ne hmn, Function.update_of_ne hmn,
            hread m (hm.resolve_right hmn).1 hmn]
      have hbit4 : bitAt (writeInode v.sb d2 n (setZone (setMode (fun _ => 0) mode) 0 z))
          v.sb.zmapStart 0 = bitAt v.disk v.sb.zmapStart 0 := by
        rw [bitAt_congr (ht _ (Or.inl (zmapStart_bit hl))), hbit, hb1]
      generalize writeInode v.sb d2 n (setZone (setMode (fun _ => 0) mode) 0 z) = d4 at *
      rw [← allocated_insert hn himap] at hzones2
      rcases getInode_cases (v := { v with disk := d4 }) hv.mem.mem n with
        ⟨q, i, hq, hi, _⟩ | ⟨_, hg⟩
      · have := (hv.live hq).1.2
        rw [hi, hun] at this
        cases this
      · rw [hg]
        refine Created.made hn hun hz0 himap hread hself (fun b hb => ?_) ?_ hzmap hbit4 hzones2
        · show d4 b = v.disk b
          rw [ht.zone hb, hd2.zone hl hb, hd1.zone hl hb]
        · refine freeZones_cons hzone hlast ?_ (fun z' hzz hlt => ?_) hzmap
          · rw [← hd1.zmapBit hl hzone]
            exact hzun
          · rw [← hd1.zmapBit hl hzz]
            exact hbelow z' hzz hlt

/-- **`inode_create` keeps the volume in order.** -/
theorem Created.inv (hv : v.Inv) {mode : Nat} {r : Option Nat} (hc : Created v mode r v') :
    v'.Inv := by
  have hl := hv.layout
  have hle := inodeZoneIndex_le hl
  cases hc with
  | @none d himap htab hzmap _ =>
    refine hv.redisk (allocated_congr himap) (fun m hm => readInode_congr hl hm.1 (htab _ (Nat.le_add_right ..))) ?_
    refine (hv.zones.transfer (fun _ _ _ _ => rfl) (fun z hz => htab z ?_) fun z hz => ⟨hz.1, ?_⟩).2
    · have := hz.1.1
      omega
    · rw [hzmap z hz.1]
      exact hz.2
  | @made n z d hn hun hz0 himap hread hself hzone hfree hzmap hbit hzones =>
    have halloc := allocated_insert hn himap
    have hfresh : ∀ {q i}, v.inodes.get q = some i → i.index ≠ n := by
      intro q i hq h
      have := (hv.live hq).1.2
      rw [h, hun] at this
      cases this
    have hmem : v.inodes.Listed v.list Inode.index (InodeOk v.sb d) :=
      hv.mem.mono fun hq h => ⟨by rw [halloc]; exact Or.inl h.1,
        by rw [h.2, hread _ h.1.1 (hfresh hq)]⟩
    have hnew : InodeOk v.sb d ⟨n, 0, 0, 0⟩ := by
      refine ⟨by rw [halloc]; exact Or.inr rfl, ?_⟩
      rw [iSize_congr fun x hx => hself x (by omega), iSize_congr fun x hx => setZone_head _ 0 z hx,
        iSize_setMode_zero]
    exact ⟨hl, hv.small, hzones, (hmem.alloc hfresh hnew).modify Store.alloc_self rfl hnew
      fun _ _ h => h⟩

/-! ## Loading an inode -/

/-- **`inode_get` keeps the volume in order**: the object it returns gets the size on disk. -/
theorem inodeGet_inv (hv : v.Inv) (hn : Allocated v.sb v.disk n) : (inodeGet v n).2.Inv := by
  unfold inodeGet
  rcases getInode_cases hv.mem.mem n with ⟨p, inode, hp, hi, hg⟩ | ⟨hno, hg⟩
  · rw [hg]
    subst hi
    exact ⟨hv.layout, hv.small, hv.zones, hv.mem.modify hp rfl ⟨hn, rfl⟩ fun _ _ h => h⟩
  · rw [hg]
    have hmem : v.inodes.Listed v.list Inode.index fun i => i.index ≠ n → InodeOk v.sb v.disk i :=
      hv.mem.mono fun _ h _ => h
    have hnew := hmem.alloc (x := ⟨n, 0, 0, 0⟩) (fun hq => hno _ _ hq) fun h => absurd rfl h
    exact ⟨hv.layout, hv.small, hv.zones, hnew.modify Store.alloc_self rfl ⟨hn, rfl⟩
      fun _ hne h => h hne⟩

/-! ## Destroying an inode -/

/-- The inode in memory after a truncation. -/
theorem Truncated.get {size : Nat} {rest : List (Nat × List Nat)} {r : Int}
    (hp : v.inodes.get p = some inode) (ht : Truncated v p inode size rest r v') :
    ∃ inode', v'.inodes.get p = some inode' ∧ inode'.index = inode.index := by
  cases ht with
  | same _ => exact ⟨inode, hp, rfl⟩
  | full _ _ => exact ⟨inode, hp, rfl⟩
  | gap _ _ _ => exact ⟨inode, hp, rfl⟩
  | grown _ _ _ => exact ⟨_, truncateEnd_get hp, rfl⟩
  | shrunk _ _ _ => exact ⟨_, truncateEnd_get hp, rfl⟩

/-- `unmark_zmap` of a zone of an inode, or of 0. -/
theorem unmarkZmap_slot {sb : Superblock} (hl : sb.Layout) (hz : sb.sZones ≤ 2 ^ 16) {z : Nat}
    (hm : z ≠ 0 → sb.IsZone z) (d : Disk) :
    ZmapOnly sb d (unmarkZmap sb d z)
      ∧ (∀ z', sb.IsZone z' → zmapBit sb (unmarkZmap sb d z) z'
          = (zmapBit sb d z' && decide (z' ≠ z)))
      ∧ bitAt (unmarkZmap sb d z) sb.zmapStart 0 = bitAt d sb.zmapStart 0 := by
  by_cases h0 : z = 0
  · subst h0
    have hpos := hl.first_pos
    have heq : unmarkZmap sb d 0 = d := by
      unfold unmarkZmap
      rw [Nat.zero_mod, if_pos hpos]
    rw [heq]
    refine ⟨fun _ _ => rfl, fun z' hz' => ?_, rfl⟩
    have hne : z' ≠ 0 := by
      have := hz'.1
      omega
    rw [decide_eq_true hne, Bool.and_true]
  · exact unmarkZmap_spec hl hz d (hm h0)

/-- **The end of `inode_destroy`**: the zone of block 0, the inode and its mark go. -/
theorem Volume.Inv.destroyEnd (hv : v.Inv) (hp : v.inodes.get p = some inode) :
    (releaseInode { v with
      disk := unmarkImap (writeInode v.sb (unmarkZmap v.sb v.disk
        (iZone (readInode v.sb v.disk inode.index) 0)) inode.index fun _ => 0) inode.index } p).Inv := by
  have hl := hv.layout
  obtain ⟨hidx, _⟩ := hv.live hp
  have hslot : IsSlot 0 [] := ⟨by omega, Nat.zero_le _, by simp⟩
  obtain ⟨hd1, hm1, _⟩ := unmarkZmap_slot hl hv.small (z := iZone (readInode v.sb v.disk inode.index) 0)
    (fun h => (hv.zones.marked hidx hslot h).1) v.disk
  generalize hd1' : unmarkZmap v.sb v.disk (iZone (readInode v.sb v.disk inode.index) 0) = d1
    at hd1 hm1 ⊢
  obtain ⟨hd2, _, hread2⟩ := writeInode_spec hl d1 hidx.1 fun _ => 0
  generalize writeInode v.sb d1 inode.index (fun _ => 0) = d2 at hd2 hread2 ⊢
  obtain ⟨hd3, hb3⟩ := unmarkImap_spec hl d2 hidx.1
  generalize unmarkImap d2 inode.index = d3 at hd3 hb3 ⊢
  have halloc : ∀ m, Allocated v.sb d3 m ↔ Allocated v.sb v.disk m ∧ m ≠ inode.index := by
    intro m
    refine ⟨fun h => ?_, fun h => ⟨h.1.1, ?_⟩⟩
    · have := h.2
      rw [hb3 m, hd2.imapBit hl h.1, hd1.imapBit hl h.1, Bool.and_eq_true, decide_eq_true_iff] at this
      exact ⟨⟨h.1, this.1⟩, this.2⟩
    · rw [hb3 m, hd2.imapBit hl h.1.1, hd1.imapBit hl h.1.1, h.1.2, decide_eq_true h.2]
      rfl
  have hread : ∀ m, Allocated v.sb v.disk m → m ≠ inode.index →
      readInode v.sb d3 m = readInode v.sb v.disk m := by
    intro m hm hne
    rw [hd3.readInode hl hm.1, hread2 m hm.1 hne, hd1.readInode hl hm.1]
  refine ⟨hl, hv.small, ?_, hv.mem.free hp fun {q y} hq hne h =>
    ⟨(halloc _).mpr ⟨h.1, hne⟩, by rw [h.2]; exact congrArg iSize (hread _ h.1 hne).symm⟩⟩
  have hrestrict := hv.zones.restrict fun m hm => ((halloc m).mp hm).1
  refine (hrestrict.transfer_used (fun m k hm _ => ?_) fun {m k q} hm hs h0 => ?_).2
  · obtain ⟨h1, h2⟩ := (halloc m).mp hm
    exact congrArg (fun i => iZone i k) (hread m h1 h2)
  · obtain ⟨h1, h2⟩ := (halloc m).mp hm
    have hmk := hv.zones.marked h1 hs h0
    have hne : zoneOf v.disk (readInode v.sb v.disk m) k q
        ≠ iZone (readInode v.sb v.disk inode.index) 0 :=
      fun heq => h2 (hv.zones.unique h1 hs hidx hslot h0 heq).1
    refine ⟨?_, hmk.1, ?_⟩
    · show d3 _ = _
      rw [hd3.zone hl hmk.1.1, hd2.zone hmk.1.1, hd1.zone hl hmk.1.1]
    · show zmapBit v.sb d3 _ = true
      rw [hd3.zmapBit hl hmk.1, hd2.zmapBit hl hmk.1, hm1 _ hmk.1, hmk.2, decide_eq_true hne]
      rfl

/-- **`inode_destroy` keeps the volume in order.** -/
theorem inodeDestroy_inv (hv : v.Inv) (hp : v.inodes.get p = some inode)
    (h : inodeDestroy v p = .ok v') : v'.Inv := by
  unfold inodeDestroy at h
  cases ht : inodeTruncate v p 0 with
  | error e =>
    rw [ht] at h
    exact absurd h (by simp [bind, Except.bind])
  | ok q =>
    have htr := inodeTruncate_cases hv hp no_slots (fun hlt => by omega) ht
    obtain ⟨inode', hp', _⟩ := htr.get hp
    rw [ht] at h
    simp only [bind, Except.bind, hp'] at h
    cases h
    exact (htr.inv hv hp).destroyEnd hp'

end Cyanurus
