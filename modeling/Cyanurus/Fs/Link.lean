import Cyanurus.Fs.Path

/-!
# Making and removing directory entries

What `create_dentry` and `destroy_dentry` do, on disk and to the cache. Neither needs the cache
to be coherent: `create_dentry` appends a record to the directory of the dentry it is given and
puts a new dentry in front of the children, and `destroy_dentry` clears the first record with the
name of the dentry and takes the dentry from its parent. The record is not written when the
directory has to grow and no zone is free; `create_dentry` does not notice.
-/

namespace Cyanurus

variable {v w : Volume} {s s' : Fs} {d p n m i : Nat} {D : Dentry} {name path : CString}

theorem Allocated.bounds (hl : v.sb.Layout) (h : Allocated v.sb v.disk n) : n ≠ 0 ∧ n < 2 ^ 32 := by
  have := h.1.1
  have := h.1.2
  have := hl.table
  have := hl.first.1
  omega

/-! ## A record is appended -/

/-- From `v` to `w` a record for inode `m` is appended to directory `n`, or there was no room. -/
structure Volume.Adds (v w : Volume) (n m : Nat) (name : CString) : Prop extends v.Changes w n where
  slots : w.sizeOf n = v.sizeOf n + direntSize ∧ w.slots n = v.slots n ++ [(m, name)]
      ∧ v.recordZones n ≤ (freeZones v.sb v.disk).length
    ∨ w.sizeOf n = v.sizeOf n ∧ w.slots n = v.slots n
      ∧ (bitAt v.disk v.sb.zmapStart 0 = true → (freeZones v.sb v.disk).length < v.recordZones n)
  few : v.recordZones n ≤ 6
  room : ∀ {k}, v.Room (k + 6) → w.Room k
  bit0 : bitAt v.disk v.sb.zmapStart 0 = true → bitAt w.disk w.sb.zmapStart 0 = true

/-- The slots that a record behind `size` bytes is going to fill. -/
def recordSlots (size : Nat) : List (Nat × List Nat) :=
  writeSlots ((size + direntSize) % 2 ^ 32 / blockSize % 2 ^ 16) fileRounds (size / blockSize % 2 ^ 16) size
    size direntSize

/-- A directory another record fits into. The indirect zones that the record takes from `free` are clear. -/
structure Volume.Grows (v : Volume) (n : Nat) (free : List Nat) : Prop where
  small : v.sizeOf n + direntSize < maxSize
  clean : Clean v.disk (v.has n) (recordSlots (v.sizeOf n)) free

/-- There are zones for another record, and `k` more. -/
def Volume.Fits (v : Volume) (n k : Nat) : Prop :=
  bitAt v.disk v.sb.zmapStart 0 = true ∧ v.recordZones n + k ≤ (freeZones v.sb v.disk).length

theorem Volume.Adds.fits (h : v.Adds w n m name) {k : Nat} (hroom : v.Room (k + 6)) : v.Fits n 0 := by
  have := h.few
  have := hroom.2
  exact ⟨hroom.1, by omega⟩

/-- The entries when there are zones for the record. -/
theorem Volume.Adds.entries (h : v.Adds w n m name) (hn : Allocated v.sb v.disk n)
    (hdir : v.isDirectory n = true) (hm : m ≠ 0) (hfit : v.Fits n 0) :
    w.entries n = v.entries n ++ [(m, name)] := by
  rcases h.slots with ⟨_, hs, _⟩ | ⟨_, _, hno⟩
  · unfold Volume.entries
    rw [h.isDirectory hn, if_pos hdir, if_pos hdir, hs, List.filter_append,
      List.filter_cons_of_pos (by simpa using hm), List.filter_nil]
  · exact absurd hfit.2 (Nat.not_le.mpr (hno hfit.1))

/-- The entries when there are not. -/
theorem Volume.Adds.entries_full (h : v.Adds w n m name) (hn : Allocated v.sb v.disk n)
    (hfull : (freeZones v.sb v.disk).length < v.recordZones n) : w.entries n = v.entries n := by
  rcases h.slots with ⟨_, _, hle⟩ | ⟨_, hs, _⟩
  · exact absurd hle (Nat.not_le.mpr hfull)
  · unfold Volume.entries
    rw [h.isDirectory hn, hs]

/-- The number of links of an inode may be changed after a directory was. -/
theorem Volume.Changes.setLinks (h : v.Changes w n) (hn : Allocated v.sb v.disk n)
    (hdir : v.isDirectory n = true) (hp : v.indexOf p = some m) (f : Nat → Nat) :
    ∃ u, inodeSet { w with inodes := w.inodes.modify p fun i => { i with nlinks := f i.nlinks } } p = .ok u
      ∧ v.Changes u n ∧ w.SameZones u ∧ u.sizeOf n = w.sizeOf n ∧ u.slots n = w.slots n := by
  obtain ⟨u, hset, hc, hsame, hz⟩ := h.ready.setLinks (by rw [h.index]; exact hp) f
  -- the inode whose links are counted keeps its contents
  have hsame' : ∀ {k}, Allocated w.sb w.disk k → w.SameFile u k := by
    intro k hk
    by_cases hkm : k = m
    · subst hkm
      exact hsame
    · exact hc.same hkm hk
  have hold : ∀ {k}, Allocated w.sb w.disk k → w.isDirectory k = true → w.sizeOf k < maxSize :=
    fun hk hd => (h.ready.dirs hk hd).small
  have hn' := h.alloc.mpr hn
  refine ⟨u, hset, ⟨hc.ready, hc.alloc.trans h.alloc, fun q => (hc.index q).trans (h.index q), fun hk => ?_,
    fun hne hk => ?_, fun hne hk => (h.same hne hk).trans (hsame' (h.alloc.mpr hk))⟩, hz,
    (hsame' hn').size, (hsame' hn').slots (hold hn' ((h.isDirectory hn).trans hdir))⟩
  · rw [hc.isDirectory (h.alloc.mpr hk), h.isDirectory hk]
  · have hk' := h.alloc.mpr hk
    rw [(hsame' hk').entries (hold hk'), h.entries_of_ne hne hk]

/-- The record and the number of links. -/
theorem Volume.Ready.adds (hv : v.Ready) {inode : Inode} (hget : v.inodes.get d = some inode)
    (hn : inode.index = n) (hdir : v.isDirectory n = true) (hp : v.indexOf p = some m)
    (hg : v.Grows n (freeZones v.sb v.disk)) (hlen : name.length ≤ nameMax) (h0 : 0 ∉ name) (f : Nat → Nat) :
    ∃ r w u, inodeWrite v d direntSize inode.size (direntBytes m name) = .ok (r, w)
      ∧ inodeSet { w with inodes := w.inodes.modify p fun i => { i with nlinks := f i.nlinks } } p = .ok u
      ∧ v.Adds u n m name := by
  subst hn
  obtain ⟨hidx, hsize⟩ := hv.inv.live hget
  have hsize' : v.sizeOf inode.index = inode.size := hsize.symm
  have hclean := hg.clean
  rw [hsize'] at hclean
  obtain ⟨r, w, hrun, hc, hroom, hbit, hfew, hslots⟩ := hv.tryAppend hget hdir (by rw [← hsize']; exact hg.small)
    hclean ((hv.allocated hp).bounds hv.inv.layout).2 hlen h0
  obtain ⟨u, hset, hc', hz, hsz, hsl⟩ := hc.setLinks hidx hdir hp f
  refine ⟨r, w, u, hrun, hset, hc', ?_, hfew, fun h => hz.room (hroom h),
    fun h => hz.2.2.trans (hbit h)⟩
  rw [hsz, hsl, hsize']
  exact hslots

/-- The dentries after `create_dentry`: `C` is new, and in front of the children of `d`. -/
def attach (st : Store Dentry) (d : Nat) (C : Dentry) : Store Dentry :=
  ((st.alloc C).modify d fun D => { D with children := st.next :: D.children }).modify d fun D =>
    { D with nentries := (D.nentries + 1) % 2 ^ 32 }

section Attach

variable {st : Store Dentry} {C : Dentry} {q : Nat}

theorem attach_self (hd : st.get d = some D) : (attach st d C).get d = some
    { D with children := st.next :: D.children, nentries := (D.nentries + 1) % 2 ^ 32 } := by
  have hne : d ≠ st.next := Nat.ne_of_lt (Store.lt_next hd)
  exact Store.modify_self_of (Store.modify_self_of ((Store.alloc_ne hne).trans hd) rfl) rfl

theorem attach_new (hd : st.get d = some D) : (attach st d C).get st.next = some C := by
  have hne : st.next ≠ d := (Nat.ne_of_lt (Store.lt_next hd)).symm
  unfold attach
  rw [Store.modify_ne hne, Store.modify_ne hne, Store.alloc_self]

theorem attach_ne (hq : q ≠ d) (hnew : q ≠ st.next) : (attach st d C).get q = st.get q := by
  unfold attach
  rw [Store.modify_ne hq, Store.modify_ne hq, Store.alloc_ne hnew]

theorem attach_old {E : Dentry} (hq : q ≠ d) (hE : st.get q = some E) :
    (attach st d C).get q = some E :=
  (attach_ne hq (Nat.ne_of_lt (Store.lt_next hE))).trans hE

/-- What is there after `attach`. -/
theorem attach_cases (hd : st.get d = some D) {E : Dentry} (hq : (attach st d C).get q = some E) :
    q = d ∧ E = { D with children := st.next :: D.children, nentries := (D.nentries + 1) % 2 ^ 32 }
    ∨ q = st.next ∧ q ≠ d ∧ E = C
    ∨ q ≠ d ∧ st.get q = some E := by
  by_cases hqd : q = d
  · subst hqd
    rw [attach_self hd] at hq
    exact .inl ⟨rfl, (Option.some.inj hq).symm⟩
  · by_cases hnew : q = st.next
    · subst hnew
      rw [attach_new hd] at hq
      exact .inr (.inl ⟨rfl, hqd, (Option.some.inj hq).symm⟩)
    · rw [attach_ne hqd hnew] at hq
      exact .inr (.inr ⟨hqd, hq⟩)

end Attach

namespace Fs

theorem readChildren_loaded (hd : s.dentries.get d = some D) (hl : D.loaded = true) :
    s.readChildren d = .ok s := by
  unfold readChildren
  rw [hd]
  simp only [hl, if_true]

theorem writeChild_eq {c : Nat} {C P : Dentry} {dir inode : Inode} {r : Int}
    (hC : s.dentries.get c = some C) (hP : s.dentries.get C.parent = some P)
    (hdir : s.vol.inodes.get P.inode = some dir) (hino : s.vol.inodes.get C.inode = some inode)
    (hlen : C.name.length < nameMax)
    (hrun : inodeWrite s.vol P.inode direntSize dir.size (direntBytes inode.index C.name) = .ok (r, w)) :
    s.writeChild c = .ok { s with vol := w } := by
  unfold writeChild
  simp only [hC, hP, hdir, hino, Option.bind_some, Option.map_some]
  rw [if_neg (by omega), hrun]
  rfl

/-- **`create_dentry`** in a directory that has been loaded. -/
theorem createDentry_adds (hv : s.vol.Ready) (hd : s.dentries.get d = some D) (hl : D.loaded = true)
    (hn : s.vol.indexOf D.inode = some n) (hdir : s.vol.isDirectory n = true)
    (hp : s.vol.indexOf p = some m) (hg : s.vol.Grows n (freeZones s.vol.sb s.vol.disk)) (hlen : name.length < nameMax) (h0 : 0 ∉ name)
    (hno : s.findChild d name = none) :
    ∃ w, s.createDentry d name p
        = .ok (0, ⟨w, attach s.dentries d ⟨name, false, 0, p, d, []⟩, s.root⟩)
      ∧ s.vol.Adds w n m name := by
  obtain ⟨dir, hget, hidx⟩ := indexOf_eq_some.mp hn
  obtain ⟨inode, hgetp, rfl⟩ := indexOf_eq_some.mp hp
  obtain ⟨r, w, u, hrun, hset, ha⟩ := hv.adds hget hidx hdir hp hg (Nat.le_of_lt hlen) h0
    fun n => (n + 1) % 2 ^ 32
  refine ⟨u, ?_, ha⟩
  have hne : d ≠ s.dentries.next := Nat.ne_of_lt (Store.lt_next hd)
  have htake : name.take nameMax = name := List.take_of_length_le (Nat.le_of_lt hlen)
  have halloc : s.allocDentry (some d) p name
      = (s.dentries.next, { s with dentries := s.dentries.alloc ⟨name, false, 0, p, d, []⟩ }) := by
    unfold allocDentry
    rw [htake]
    rfl
  have hwrite := writeChild_eq (c := s.dentries.next) (s := { s with
      dentries := (s.dentries.alloc ⟨name, false, 0, p, d, []⟩).modify d fun D =>
        { D with children := s.dentries.next :: D.children } })
    ((Store.modify_ne hne.symm).trans Store.alloc_self)
    (Store.modify_self_of ((Store.alloc_ne hne).trans hd) rfl) hget hgetp hlen hrun
  unfold createDentry
  rw [if_neg (by omega), readChildren_loaded hd hl]
  simp only [bind, Except.bind, hno, halloc, update, setNlinks]
  rw [hwrite]
  simp only [hset]
  rfl

end Fs

/-! ## A record is cleared -/

section Clear

variable {inode : Inode} {k : Nat}

/-- Of the elements that pass a test, one is replaced by one that does not. -/
theorem filter_set_perm {α : Type} {q : α → Bool} {e e' : α} {l : List α} (h : l[i]? = some e)
    (he : q e = true) (he' : q e' = false) : (l.filter q).Perm (e :: (l.set i e').filter q) := by
  induction l generalizing i with
  | nil => cases h
  | cons x l ih =>
    cases i with
    | zero =>
      cases h
      rw [List.set_cons_zero, List.filter_cons_of_pos he, List.filter_cons_of_neg (by simp [he'])]
    | succ i =>
      have hl := ih (i := i) (by simpa using h)
      rw [List.set_cons_succ, List.filter_cons, List.filter_cons]
      split
      · exact (hl.cons x).trans (.swap ..)
      · exact hl

/-- From `v` to `w` record `i` of directory `n` is cleared. -/
structure Volume.Clears (v w : Volume) (n i : Nat) : Prop extends v.Changes w n where
  used : i < v.sizeOf n / direntSize ∧ (v.slot n i).1 ≠ 0
  size : w.sizeOf n = v.sizeOf n
  slots : ∃ x, w.slots n = (v.slots n).set i (0, x)

/-- **A record is cleared.** -/
theorem Volume.Ready.clearRecord {src : Bytes} (hv : v.Ready) (hp : v.inodes.get p = some inode)
    (hdir : v.isDirectory inode.index = true) (hi : i < v.sizeOf inode.index / direntSize)
    (h0 : (v.slot inode.index i).1 ≠ 0) (hsrc : (dirent src 0).1 = 0) :
    ∃ w, inodeWrite v p direntSize (i * direntSize) src = .ok (direntSize, w)
      ∧ v.Clears w inode.index i := by
  obtain ⟨hidx, hsize⟩ := hv.inv.live hp
  have hsize' : v.sizeOf inode.index = inode.size := hsize.symm
  have hd := hv.dirs hidx hdir
  have hsmall := hd.small
  have hfit : i * direntSize + direntSize ≤ inode.size := by
    unfold direntSize at *
    omega
  have hclean : v.CleanWrite inode (i * direntSize) direntSize := by
    unfold Volume.CleanWrite
    rw [writeSlots_inside (by omega) hfit]
    trivial
  obtain ⟨r, w, hrun, hc, _, _, ⟨rfl, hs, hself, hother, _⟩ | ⟨_, hlt, _⟩⟩ := hv.tryRecord (i := i) hp hdir
    (by omega) (by omega) hclean src
  case inr => omega
  rw [Nat.max_eq_left hfit, ← hsize'] at hs
  refine ⟨w, hrun, hc, ⟨hi, h0⟩, hs, (dirent src 0).2, ?_⟩
  rw [show ((0, (dirent src 0).2) : Nat × CString) = dirent src 0 from Prod.ext hsrc.symm rfl]
  refine List.ext_getElem? fun j => ?_
  rcases Nat.lt_or_ge j (v.sizeOf inode.index / direntSize) with hj | hj
  · rw [getElem?_slots (by rw [hs]; exact hj)]
    by_cases hji : j = i
    · subst hji
      rw [List.getElem?_set_self (by rw [slots_length]; exact hi), hself]
    · rw [List.getElem?_set_ne (Ne.symm hji), getElem?_slots hj, hother j hji hj]
  · rw [List.getElem?_eq_none (by rw [slots_length, hs]; exact hj),
      List.getElem?_eq_none (by rw [List.length_set, slots_length]; exact hj)]

/-- **The entry is gone.** -/
theorem Volume.Clears.entries (h : v.Clears w n i) (hn : Allocated v.sb v.disk n)
    (hdir : v.isDirectory n = true) : (v.entries n).Perm (v.slot n i :: w.entries n) := by
  obtain ⟨x, hslots⟩ := h.slots
  unfold Volume.entries
  rw [h.isDirectory hn, if_pos hdir, if_pos hdir, hslots]
  exact filter_set_perm (getElem?_slots h.used.1) (by simpa using h.used.2) (by simp)

end Clear

namespace Fs

/-- The record `remove_child` writes is not in use. -/
theorem dirent_cleared (b : Bytes) (a : Nat) : (dirent (fun x => b.store 4 a 0 (a + x)) 0).1 = 0 := by
  have hload : Bytes.load (fun x => b.store 4 a 0 (a + x)) 4 0 = (b.store 4 a 0).load 4 a :=
    Bytes.load_shift fun x _ => by rw [Nat.zero_add]
  exact hload.trans (Bytes.load_store_self b 4 a 0)

/-- **The loop of `remove_child` clears the first record with the name**, if there is one. -/
theorem removeBlocks_clears {v : Volume} {p n : Nat} (name : CString) (hv : v.Ready) (hp : v.indexOf p = some n)
    (hdir : v.isDirectory n = true) : ∀ (fuel : Nat) {o : Nat}, o % direntSize = 0 → o ≤ v.sizeOf n →
    v.sizeOf n - o + blockSize ≤ fuel * blockSize →
    ((∀ i, o / direntSize ≤ i → i < v.sizeOf n / direntSize → (v.slot n i).1 ≠ 0 →
        sameName (v.slot n i).2 name = false) ∧ removeBlocks p name fuel v o = .ok (false, v))
    ∨ ∃ i w, sameName (v.slot n i).2 name = true ∧ v.Clears w n i
        ∧ removeBlocks p name fuel v o = .ok (true, w)
  | 0, o, _, _, hfuel => by
    unfold blockSize at hfuel
    omega
  | fuel + 1, o, ho, hle, hfuel => by
    obtain ⟨inode, hget, rfl⟩ := indexOf_eq_some.mp hp
    have hidx := (hv.inv.live hget).1
    have hd := hv.dirs hidx hdir
    have hsize : inode.size = v.sizeOf inode.index := (hv.inv.live hget).2
    have hsmall := hd.small
    have hwhole := hd.whole
    have hmax : maxSize = 268431360 := rfl
    have hread := inodeRead_eq hv.inv.sited hget hidx (by omega)
      (show o + blockSize < 2 ^ 32 by unfold blockSize; omega) fun _ => 0
    rw [hsize] at hread
    rw [removeBlocks, hread]
    generalize hrs : min blockSize (v.sizeOf inode.index - o) = rs
    have hmod : rs % direntSize = 0 := by
      unfold blockSize direntSize at *
      omega
    simp only [bind, Except.bind, Int.toNat_natCast]
    by_cases h0 : rs = 0
    · -- nothing is left to read
      refine .inl ⟨fun i hi hlt => ?_, if_pos (by omega)⟩
      unfold blockSize direntSize at *
      omega
    · rw [if_neg (by omega)]
      have hblock : ∀ {j}, j < rs / direntSize → dirent (fun x =>
          if x < rs then v.readAt inode.index (o + x) else 0) (j * direntSize)
          = v.slot inode.index (o / direntSize + j) := by
        intro j hj
        refine dirent_congr fun x hx => ?_
        rw [if_pos (by unfold direntSize at *; omega)]
        congr 1
        unfold direntSize at *
        omega
      generalize (fun x => if x < rs then v.readAt inode.index (o + x) else 0) = buf at hblock ⊢
      cases hf : (direntOffsets rs).find? fun a => dIno buf a != 0 && sameName (dName buf a) name with
      | some a =>
        obtain ⟨j, hj, rfl⟩ := List.mem_map.mp (List.mem_of_find?_eq_some hf)
        have hj := List.mem_range.mp hj
        have htest := List.find?_some hf
        rw [Bool.and_eq_true, bne_iff_ne] at htest
        have hslot := hblock hj
        right
        obtain ⟨w, hrun, hc⟩ := hv.clearRecord (i := o / direntSize + j)
          hget hdir (by unfold direntSize at *; omega) (by rw [← hslot]; exact htest.1)
          (dirent_cleared buf (j * direntSize))
        refine ⟨_, w, by rw [← hslot]; exact htest.2, hc, ?_⟩
        have hoff : (o + j * direntSize) % 2 ^ 32 = (o / direntSize + j) * direntSize := by
          unfold direntSize at *
          omega
        simp only [hoff, hrun]
        rfl
      | none =>
        have hround : (o + rs) % 2 ^ 32 = o + rs := Nat.mod_eq_of_lt (by omega)
        simp only [hround]
        have hnone : ∀ j, j < rs / direntSize → (v.slot inode.index (o / direntSize + j)).1 ≠ 0 →
            sameName (v.slot inode.index (o / direntSize + j)).2 name = false := by
          intro j hj hne
          have := List.find?_eq_none.mp hf (j * direntSize)
            (List.mem_map_of_mem (List.mem_range.mpr hj))
          rw [← hblock hj] at hne ⊢
          have hne : dIno buf (j * direntSize) ≠ 0 := hne
          show sameName (dName buf (j * direntSize)) name = false
          simpa [hne] using this
        rcases removeBlocks_clears name hv hp hdir fuel (o := o + rs)
          (by unfold direntSize at *; omega) (by omega)
          (by unfold blockSize at *; omega) with ⟨hno, hrun⟩ | hfound
        · refine .inl ⟨fun i hi hlt hne => ?_, hrun⟩
          rcases Nat.lt_or_ge i (o / direntSize + rs / direntSize) with h | h
          · have := hnone (i - o / direntSize) (by omega)
            rw [show o / direntSize + (i - o / direntSize) = i by omega] at this
            exact this hne
          · exact hno i (by unfold direntSize at *; omega) hlt hne
        · exact .inr hfound

end Fs

/-- The dentries after `destroy_dentry`: `d` is gone, also from the children of `parent`. -/
def detach (st : Store Dentry) (d parent : Nat) : Store Dentry :=
  ((st.modify parent fun P => { P with nentries := (P.nentries + 2 ^ 32 - 1) % 2 ^ 32 }).modify parent
    fun P => { P with children := P.children.erase d }).free d

section Detach

variable {st : Store Dentry} {P : Dentry} {q : Nat}

theorem detach_parent (hP : st.get p = some P) (hne : p ≠ d) : (detach st d p).get p = some
    { P with nentries := (P.nentries + 2 ^ 32 - 1) % 2 ^ 32, children := P.children.erase d } := by
  unfold detach
  rw [Store.free_ne hne, Store.modify_self, Store.modify_self, hP, Option.map_some, Option.map_some]

theorem detach_ne (hq : q ≠ d) (hp : q ≠ p) : (detach st d p).get q = st.get q := by
  unfold detach
  rw [Store.free_ne hq, Store.modify_ne hp, Store.modify_ne hp]

/-- What is there after `detach`. -/
theorem detach_cases (hP : st.get p = some P) (hne : p ≠ d) {E : Dentry}
    (hq : (detach st d p).get q = some E) :
    q = p ∧ E = { P with nentries := (P.nentries + 2 ^ 32 - 1) % 2 ^ 32, children := P.children.erase d }
    ∨ q ≠ p ∧ q ≠ d ∧ st.get q = some E := by
  by_cases hqp : q = p
  · subst hqp
    rw [detach_parent hP hne] at hq
    exact .inl ⟨rfl, (Option.some.inj hq).symm⟩
  · by_cases hqd : q = d
    · subst hqd
      unfold detach at hq
      rw [Store.free_self] at hq
      cases hq
    · rw [detach_ne hqd hqp] at hq
      exact .inr ⟨hqp, hqd, hq⟩

end Detach

namespace Fs

/-- **`destroy_dentry`** of a dentry that is not the root. -/
theorem destroyDentry_clears {P : Dentry} (hv : s.vol.Ready) (hd : s.dentries.get d = some D)
    (hP : s.dentries.get D.parent = some P) (hne : D.parent ≠ d) (hn : s.vol.indexOf P.inode = some n)
    (hdir : s.vol.isDirectory n = true) (hm : s.vol.indexOf D.inode = some m) :
    ((∀ i, i < s.vol.sizeOf n / direntSize → (s.vol.slot n i).1 ≠ 0 →
        sameName (s.vol.slot n i).2 D.name = false) ∧ s.destroyDentry d = .ok (-1, s))
    ∨ ∃ i w, sameName (s.vol.slot n i).2 D.name = true ∧ s.vol.Clears w n i
        ∧ s.destroyDentry d = .ok (0, ⟨w, detach s.dentries d D.parent, s.root⟩) := by
  have hsmall := (hv.dirs (hv.allocated hn) hdir).small
  have hmax : maxSize = 268431360 := rfl
  unfold destroyDentry removeChild
  rw [hd]
  simp only [hP]
  rcases removeBlocks_clears D.name hv hn hdir fileRounds (Nat.zero_mod _) (Nat.zero_le _)
    (by unfold blockSize fileRounds; omega) with ⟨hno, hrun⟩ | ⟨i, w, hname, hc, hrun⟩
  · refine .inl ⟨fun i hi => hno i (by simp) hi, ?_⟩
    rw [hrun]
    rfl
  · obtain ⟨u, hset, hcu, -, hsz, hsl⟩ := hc.toChanges.setLinks (hv.allocated hn) hdir hm
      fun n => (n + 2 ^ 32 - 1) % 2 ^ 32
    refine .inr ⟨i, u, hname, ⟨hcu, hc.used, hsz.trans hc.size, hsl ▸ hc.slots⟩, ?_⟩
    rw [hrun]
    simp only [setNlinks, update, bind, Except.bind, hset]
    rw [if_neg hne]
    rfl

end Fs

end Cyanurus
