import Cyanurus.Fs.TreeRun

/-!
# What the calls leave on disk

Three results about single calls of the file system, from any state that sound calls lead to; the
paths of the call itself are arbitrary.

* A file or directory that was made is in its parent (**`created_on_disk`**). `write_child` drops
  the result of `inode_write`, so this needs zones (`created_unrecorded`).
* Regular files keep their bytes (**`files_kept`**), unless an entry is created in one
  (`file_overwritten`).
* A call that fails leaves bitmaps, inodes and contents as they were (**`failed_create`**). With an
  entry for an inode that is gone, the lookups of the call load it again (`failed_create_loads`).
-/

namespace Cyanurus

open Lts

variable {v w u : Volume} {s s' : Fs} {path : CString} {flags mode : Nat} {n m k : Nat}

/-! ## Records -/

section Records

variable {u₁ u₂ : Volume} {p : Nat} {name : CString}

/-- **A new inode gets its record** exactly if there are zones for both. -/
theorem Volume.Creates.recorded (hcr : v.Creates w p m mode) (ha : w.Adds u n m name)
    (hn : Allocated v.sb v.disk n) (hdir : v.isDirectory n = true) (hsmall : v.sizeOf n + direntSize < maxSize)
    (hb : bitAt v.disk v.sb.zmapStart 0 = true) (hfree : ∀ k, (k, name) ∉ v.entries n) :
    (∀ k, (k, name) ∈ u.entries n → v.Fits n 1) ∧ (v.Fits n 1 → (m, name) ∈ u.entries n) := by
  have hnw : Allocated w.sb w.disk n := hcr.alloc.mpr (.inl hn)
  have hm : Allocated w.sb w.disk m := hcr.alloc.mpr (.inr rfl)
  have hzones := hcr.recordZones hn hsmall
  have htook := hcr.freeZones_length
  refine ⟨fun k hmem => by_contra fun hno => ?_, fun hfit => ?_⟩
  · have hlt : (freeZones v.sb v.disk).length < v.recordZones n + 1 :=
      Nat.lt_of_not_le fun hle => hno ⟨hb, hle⟩
    rw [ha.entries_full hnw (by omega), hcr.entries hn] at hmem
    exact hfree k hmem
  · have hle := hfit.2
    rw [ha.entries hnw ((hcr.sameFile hn).isDirectory.trans hdir)
      (hm.bounds hcr.ready.inv.layout).1 ⟨hcr.bit0 hb, by omega⟩]
    exact List.mem_append_right _ (List.mem_singleton_self _)

/-- Where a record does not begin a new block, it takes no zones. -/
theorem Volume.Ready.fits (hv : v.Ready) (hn : Allocated v.sb v.disk n) (hdir : v.isDirectory n = true)
    (hin : (v.sizeOf n + direntSize) / blockSize = v.sizeOf n / blockSize)
    (hb : bitAt v.disk v.sb.zmapStart 0 = true) : v.Fits n 0 := by
  refine ⟨hb, ?_⟩
  unfold Volume.recordZones
  rw [missing_mapped (by rw [hin]; exact (hv.dirs hn hdir).mapped)]
  exact Nat.zero_le _

/-- The new directory has its two records, whether or not it has one in its parent. -/
theorem Volume.Creates.filled (hcr : v.Creates w p m mode) (ha : w.Adds u n m name)
    (hself : u.Adds u₁ m m dot) (hparent : u₁.Adds u₂ m n dotdot) (hn : Allocated v.sb v.disk n)
    (hmode : isDir mode = true) (hb : bitAt v.disk v.sb.zmapStart 0 = true) :
    u₂.entries n = u.entries n ∧ u₂.entries m = [(m, dot), (n, dotdot)]
      ∧ ∀ k, Allocated u₂.sb u₂.disk k ↔ Allocated v.sb v.disk k ∨ k = m := by
  have hne : n ≠ m := fun h => hcr.fresh (h ▸ hn)
  have hmw : Allocated w.sb w.disk m := hcr.alloc.mpr (.inr rfl)
  have hmu : Allocated u.sb u.disk m := ha.alloc.mpr hmw
  have hnu : Allocated u.sb u.disk n := ha.alloc.mpr (hcr.alloc.mpr (.inl hn))
  have hdirm : u.isDirectory m = true := by
    rw [ha.isDirectory hmw, hcr.isDirectory_new, hmode]
  have hsize : u.sizeOf m = 0 := (ha.same (Ne.symm hne) hmw).size.trans hcr.size
  have hbit := ha.bit0 (hcr.bit0 hb)
  have hdirm₁ := (hself.isDirectory hmu).trans hdirm
  have hsize₁ : u₁.sizeOf m / blockSize = 0 ∧ (u₁.sizeOf m + direntSize) / blockSize = 0 := by
    rcases hself.slots with ⟨h, _⟩ | ⟨h, _⟩ <;> rw [h, hsize] <;> decide
  refine ⟨?_, ?_, fun k => hparent.alloc.trans (hself.alloc.trans (ha.alloc.trans hcr.alloc))⟩
  · rw [hparent.entries_of_ne hne (hself.alloc.mpr hnu), hself.entries_of_ne hne hnu]
  · have hempty : u.entries m = [] := by
      rw [ha.entries_of_ne (Ne.symm hne) hmw]
      exact hcr.entries_new
    rw [hparent.entries (hself.alloc.mpr hmu) hdirm₁ (hnu.bounds ha.ready.inv.layout).1
        (hself.ready.fits (hself.alloc.mpr hmu) hdirm₁ (hsize₁.2.trans hsize₁.1.symm)
          (hself.bit0 hbit)),
      hself.entries hmu hdirm (hmu.bounds ha.ready.inv.layout).1
        (ha.ready.fits hmu hdirm (by rw [hsize]; decide) hbit), hempty]
    rfl

end Records

namespace Fs

/-- A lookup that finds something has been led there. -/
theorem Found.there {e : Nat} (hf : Found s s' path (some e)) :
    ∃ m, Absolute path ∧ s.vol.tree.Leads 1 (pathNames path) m := by
  obtain ⟨E, hE, _⟩ := hf.found rfl
  obtain ⟨m, hm⟩ := hf.coherent.object hE
  obtain ⟨habs, _, hl⟩ := (hf.leads m).mp ⟨e, E, rfl, hE, hm⟩
  exact ⟨m, habs, hl⟩

/-- The directory part of the path leads to a directory `n`, which has an entry on `v` for the one
inode `m` that is new. -/
def Recorded (s : Fs) (v : Volume) (path : CString) (n m : Nat) : Prop :=
  s.vol.tree.Leads 1 (pathNames (dirname path)) n ∧ ¬ Allocated s.vol.sb s.vol.disk m
    ∧ (∀ k, Allocated v.sb v.disk k ↔ Allocated s.vol.sb s.vol.disk k ∨ k = m)
    ∧ (m, basename path) ∈ v.entries n

/-- There are zones for a new inode, and for its record in the directory that the path goes to. -/
def FitsBoth (s : Fs) (path : CString) : Prop :=
  ∃ n, s.vol.tree.Leads 1 (pathNames (dirname path)) n ∧ s.vol.Fits n 1

theorem Spot.recorded {s₂ : Fs} {d p : Nat} {D : Dentry} (hsp : Spot s s₂ path d n D)
    (ht : s.Takes path) (hb : bitAt s.vol.disk s.vol.sb.zmapStart 0 = true)
    (hcr : s₂.vol.Creates w p m mode) (ha : w.Adds u n m (basename path))
    (hent : v.entries n = u.entries n)
    (hm : ∀ k, Allocated v.sb v.disk k ↔ Allocated s₂.vol.sb s₂.vol.disk k ∨ k = m) :
    (∀ n' m', Recorded s v path n' m' → FitsBoth s path)
      ∧ (FitsBoth s path → Recorded s v path n m) := by
  obtain ⟨hdir, hg⟩ := hsp.takes ht
  have hb₂ : bitAt s₂.vol.disk s₂.vol.sb.zmapStart 0 = true := by
    rw [hsp.ext.sb, hsp.ext.disk]
    exact hb
  have hfits : s₂.vol.Fits n 1 ↔ s.vol.Fits n 1 := by
    unfold Volume.Fits Volume.recordZones Volume.has Volume.sizeOf
    rw [hsp.ext.sb, hsp.ext.disk]
  have hfresh := hcr.fresh
  simp only [hsp.ext.sb, hsp.ext.disk] at hfresh hm
  obtain ⟨hgot, hgive⟩ := hcr.recorded ha hsp.allocated hdir hg.small hb₂
    fun k => by rw [hsp.ext.entries]; exact hsp.free k
  refine ⟨fun n' m' ⟨hl, _, _, hmem⟩ => ?_, fun ⟨n', hl, hfit⟩ => ?_⟩
  · obtain rfl := hsp.only hl
    rw [hent] at hmem
    exact ⟨n', hl, hfits.mp (hgot m' hmem)⟩
  · obtain rfl := hsp.only hl
    exact ⟨hl, hfresh, hm, by rw [hent]; exact hgive (hfits.mpr hfit)⟩

/-- **What was made is on disk** exactly if there were zones for it. The path leads nowhere before
the call. -/
theorem created_on_disk (hc : s.Coherent) (h0 : 0 ∉ path) (ht : s.Takes path)
    (hb : bitAt s.vol.disk s.vol.sb.zmapStart 0 = true)
    (hnew : ∀ m, ¬ (Absolute path ∧ s.vol.tree.Leads 1 (pathNames path) m)) :
    (s.create path flags mode = .ok (0, s') → ((∃ n m, Recorded s s'.vol path n m) ↔ FitsBoth s path))
    ∧ (s.mkdir path mode = .ok (0, s') → ((∃ n m, Recorded s s'.vol path n m
        ∧ s'.vol.entries m = [(m, dot), (n, dotdot)]) ↔ FitsBoth s path)) := by
  constructor
  · intro h
    generalize hr : (0 : Int) = r at h
    cases create_ends hc h0 ht h with
    | failed hneg => omega
    | there hf =>
      obtain ⟨m, hm⟩ := hf.there
      exact absurd hm (hnew m)
    | @linked s₂ w u d n m p D hsp hlen hcr ha =>
      obtain ⟨hgot, hgive⟩ := hsp.recorded ht hb hcr ha (Eq.refl (u.entries n)) fun _ => ha.alloc.trans hcr.alloc
      exact ⟨fun ⟨n, m, hm⟩ => hgot n m hm, fun hfit => ⟨_, _, hgive hfit⟩⟩
  · intro h
    generalize hr : (0 : Int) = r at h
    cases mkdir_ends hc h0 ht h with
    | failed hneg => omega
    | linked hsp hlen hcr ha hself hparent =>
      obtain ⟨hent, hdots, hm⟩ := hcr.filled ha hself hparent hsp.allocated
        (by rw [isDir_mode]; decide) (by rw [hsp.ext.sb, hsp.ext.disk]; exact hb)
      obtain ⟨hgot, hgive⟩ := hsp.recorded ht hb hcr ha hent hm
      exact ⟨fun ⟨n, m, hm, _⟩ => hgot n m hm, fun hfit => ⟨_, _, hgive hfit, hdots⟩⟩

/-! ### The root directory -/

theorem mount_entries {full : Bool} :
    (mount (rootVolume full)).vol.entries 1 = [(1, dot), (1, dotdot)] := by
  obtain ⟨_, hsb, hdisk, _⟩ := rootVolume_formed.ready.get (v := rootVolume full) rootVolume_formed.tree.root
  exact (entries_of_disk hsb hdisk 1).trans rootVolume_entries

theorem mount_new {full : Bool} (m : Nat) : ¬ (Absolute [47, 102]
    ∧ (mount (rootVolume full)).vol.tree.Leads 1 (pathNames [47, 102]) m) := by
  rintro ⟨_, k, hk, _⟩
  have hk : (k, [102]) ∈ (mount (rootVolume full)).vol.entries 1 := hk
  rw [mount_entries] at hk
  simp [dot, dotdot] at hk

theorem mount_takes : (mount (rootVolume false)).Takes [47, 102]
    ∧ (mount (rootVolume false)).vol.Room 19 := by
  have hnear : FsAct.Near (mount (rootVolume false)) (.create [47, 102] 0 0) := by decide
  exact hnear.sound.2

theorem created_on_disk_root : ∃ s', (mount (rootVolume false)).create [47, 102] 0 0o644 = .ok (0, s')
    ∧ ∃ n m, Recorded (mount (rootVolume false)) s'.vol [47, 102] n m := by
  obtain ⟨⟨r, s'⟩, hrun, hr⟩ := eq_ok_of_probe (show ((mount (rootVolume false)).create [47, 102] 0
    0o644).toOption.map Prod.fst = some 0 by decide)
  obtain rfl : r = 0 := hr
  exact ⟨s', hrun, ((created_on_disk (mount_tidy rootVolume_formed).toCoherent (by decide)
    mount_takes.1 mount_takes.2.1 mount_new).1 hrun).mpr ⟨1, by exact rfl, mount_takes.2.1, by decide⟩⟩

/-- The last record of the block would need another one, and the zone went to the new file. -/
theorem created_unrecorded : ¬ ∀ (v : Volume) (as : List FsAct) (s s' : Fs) (path : CString)
    (flags mode : Nat), v.Formed → Run FsStep (mount v) as s → 0 ∉ path →
    (∀ m, ¬ (Absolute path ∧ s.vol.tree.Leads 1 (pathNames path) m)) →
    s.create path flags mode = .ok (0, s') →
    ∃ n m, s.vol.tree.Leads 1 (pathNames (dirname path)) n
      ∧ (m, basename path) ∈ s'.vol.entries n := by
  intro hall
  obtain ⟨⟨r, s'⟩, hrun, hq⟩ := eq_ok_of_probe (show ((mount (rootVolume true)).create [47, 102] 0
    0).toOption.map (fun r => (r.1, r.2.vol.entries 1)) = some (0, [(1, dot), (1, dotdot)]) by decide)
  obtain ⟨hr, hent⟩ := Prod.mk.inj hq
  obtain rfl : r = 0 := hr
  obtain ⟨n, m, hn, hm⟩ := hall _ [] _ s' [47, 102] 0 0 rootVolume_formed .nil (by decide)
    mount_new hrun
  obtain rfl : 1 = n := hn
  have hbase : basename [47, 102] = [102] := by decide
  rw [show s'.vol.entries 1 = _ from hent, hbase] at hm
  simp [dot, dotdot] at hm

end Fs

/-! ## Regular files -/

/-- From `v` to `w` only directories change. -/
structure Volume.KeepsFiles (v w : Volume) : Prop where
  alloc : ∀ {k}, Allocated w.sb w.disk k ↔ Allocated v.sb v.disk k
  index : ∀ q, w.indexOf q = v.indexOf q
  isDirectory : ∀ {k}, Allocated v.sb v.disk k → w.isDirectory k = v.isDirectory k
  same : ∀ {k}, Allocated v.sb v.disk k → v.isDirectory k = false → v.SameFile w k

theorem Volume.KeepsFiles.refl (v : Volume) : v.KeepsFiles v :=
  ⟨Iff.rfl, fun _ => rfl, fun _ => rfl, fun _ _ => .refl v _⟩

theorem Volume.KeepsFiles.trans (h : v.KeepsFiles w) (h' : w.KeepsFiles u) : v.KeepsFiles u where
  alloc := h'.alloc.trans h.alloc
  index := fun q => (h'.index q).trans (h.index q)
  isDirectory := fun hk => (h'.isDirectory (h.alloc.mpr hk)).trans (h.isDirectory hk)
  same := fun hk hfile => (h.same hk hfile).trans
    (h'.same (h.alloc.mpr hk) ((h.isDirectory hk).trans hfile))

theorem ne_of_isDirectory (hn : v.isDirectory n = true) (hk : v.isDirectory k = false) : k ≠ n := by
  rintro rfl
  rw [hn] at hk
  cases hk

theorem Volume.Clears.keepsFiles {i : Nat} (h : v.Clears w n i) (hdir : v.isDirectory n = true) :
    v.KeepsFiles w :=
  ⟨h.alloc, h.index, h.isDirectory, fun hk hfile => h.same (ne_of_isDirectory hdir hfile) hk⟩

namespace Fs

/-- What `destroy_dentry` relies on: a parent is a directory, if it is there. -/
structure Housed (s : Fs) : Prop where
  ready : s.vol.Ready
  object : ∀ {d D}, s.dentries.get d = some D → ∃ n, s.vol.indexOf D.inode = some n
  home : ∀ {d D P}, s.dentries.get d = some D → s.dentries.get D.parent = some P →
    ∃ n, s.vol.indexOf P.inode = some n ∧ s.vol.isDirectory n = true

theorem Coherent.housed (hc : s.Coherent) : s.Housed where
  ready := hc.ready
  object := hc.object
  home := fun {d D P} hd hP => by
    by_cases hroot : d = s.root
    · obtain ⟨R, hR, hpar⟩ := hc.links.top
      rw [hroot, hR] at hd
      cases hd
      rw [hpar, hR] at hP
      cases hP
      exact ⟨1, hc.root hR, hc.rootDir⟩
    · obtain ⟨P', n, m, hP', _, _, hn, _, hentry⟩ := hc.entry hd hroot
      rw [hP] at hP'
      cases hP'
      exact ⟨n, hn, (mem_entries.mp hentry).1⟩

section Remove

variable {d : Nat} {D : Dentry} {r : Int}

/-- The dentries that are left after one was taken away. -/
theorem Housed.detached {P : Dentry} (hs : s.Housed) (hP : s.dentries.get D.parent = some P)
    (hne : D.parent ≠ d) (hw : w.Ready) (hk : s.vol.KeepsFiles w) :
    Housed ⟨w, detach s.dentries d D.parent, s.root⟩ := by
  -- inode and parent of each are as they were
  have hold : ∀ {q E}, (detach s.dentries d D.parent).get q = some E →
      ∃ E', s.dentries.get q = some E' ∧ E'.inode = E.inode ∧ E'.parent = E.parent := by
    intro q E hq
    rcases detach_cases hP hne hq with ⟨rfl, rfl⟩ | ⟨_, _, hE⟩
    · exact ⟨P, hP, rfl, rfl⟩
    · exact ⟨E, hE, rfl, rfl⟩
  refine ⟨hw, fun {q E} hq => ?_, fun {q E Q} hq hQ => ?_⟩
  · obtain ⟨E', hE', hino, _⟩ := hold hq
    obtain ⟨n, hn⟩ := hs.object hE'
    exact ⟨n, by rw [← hino]; exact (hk.index _).trans hn⟩
  · obtain ⟨E', hE', _, hpar⟩ := hold hq
    obtain ⟨Q', hQ', hino, _⟩ := hold hQ
    obtain ⟨n, hn, hdir⟩ := hs.home hE' (hpar ▸ hQ')
    refine ⟨n, by rw [← hino]; exact (hk.index _).trans hn, ?_⟩
    exact (hk.isDirectory (hs.ready.allocated hn)).trans hdir

/-- The root dentry is its own parent; it can only be found not to have a record. -/
theorem Housed.destroyTop (hs : s.Housed) (hd : s.dentries.get d = some D) (hpar : D.parent = d)
    (hn : s.vol.indexOf D.inode = some n) (hdir : s.vol.isDirectory n = true)
    (h : s.destroyDentry d = .ok (r, s')) : s' = s := by
  have hsmall := (hs.ready.dirs (hs.ready.allocated hn) hdir).small
  have hmax : maxSize = 268431360 := rfl
  unfold Fs.destroyDentry removeChild at h
  simp only [hpar, hd, bind, Except.bind] at h
  rcases removeBlocks_clears D.name hs.ready hn hdir fileRounds (Nat.zero_mod _) (Nat.zero_le _)
    (by unfold blockSize fileRounds; omega) with ⟨_, hrun⟩ | ⟨i, w, _, _, hrun⟩
  · rw [hrun] at h
    cases h
    rfl
  · rw [hrun] at h
    simp only [Bool.not_true, Bool.false_eq_true, if_false] at h
    -- taking it out of the list of siblings is a fault
    split at h
    · cases h
    · cases h

/-- **`destroy_dentry` changes no regular file.** -/
theorem Housed.destroyDentry (hs : s.Housed) (h : s.destroyDentry d = .ok (r, s')) :
    s'.Housed ∧ s.vol.KeepsFiles s'.vol := by
  cases hd : s.dentries.get d with
  | none =>
    unfold Fs.destroyDentry at h
    rw [hd] at h
    cases h
  | some D =>
    cases hP : s.dentries.get D.parent with
    | none =>
      unfold Fs.destroyDentry removeChild at h
      rw [hd] at h
      simp only [hP] at h
      cases h
    | some P =>
      obtain ⟨n, hn, hdir⟩ := hs.home hd hP
      obtain ⟨m, hm⟩ := hs.object hd
      by_cases hne : D.parent = d
      · rw [hne, hd] at hP
        cases hP
        obtain rfl := hs.destroyTop hd hne hn hdir h
        exact ⟨hs, .refl _⟩
      · rcases destroyDentry_clears hs.ready hd hP hne hn hdir hm with ⟨_, hrun⟩ | ⟨i, w, _, hw, hrun⟩
        · rw [hrun] at h
          cases h
          exact ⟨hs, .refl _⟩
        · rw [hrun] at h
          cases h
          have hk := hw.keepsFiles hdir
          exact ⟨hs.detached hP hne hw.ready hk, hk⟩

theorem Housed.unlinkAll : ∀ {cs : List Nat} {s s' : Fs}, s.Housed → unlinkAll cs s = .ok s' →
    s'.Housed ∧ s.vol.KeepsFiles s'.vol
  | [], s, s', hs, h => by
    cases h
    exact ⟨hs, .refl _⟩
  | c :: cs, s, s', hs, h => by
    obtain ⟨⟨r, s₁⟩, hrun, h⟩ := bind_eq_ok h
    obtain ⟨hs₁, hk⟩ := hs.destroyDentry hrun
    obtain ⟨hs', hk'⟩ := hs₁.unlinkAll h
    exact ⟨hs', hk.trans hk'⟩

theorem Housed.removeDentryAndChildren (hs : s.Housed) (h : s.removeDentryAndChildren d = .ok s') :
    s'.Housed ∧ s.vol.KeepsFiles s'.vol := by
  unfold Fs.removeDentryAndChildren at h
  cases hd : s.dentries.get d with
  | none =>
    rw [hd] at h
    cases h
  | some D =>
    rw [hd] at h
    obtain ⟨s₁, hrun₁, h⟩ := bind_eq_ok h
    obtain ⟨⟨r, s₂⟩, hrun₂, h⟩ := bind_eq_ok h
    cases h
    obtain ⟨hs₁, hk⟩ := hs.unlinkAll hrun₁
    obtain ⟨hs₂, hk'⟩ := hs₁.destroyDentry hrun₂
    exact ⟨hs₂, hk.trans hk'⟩

end Remove

section Kept

variable {s₂ : Fs} {r : Int} {d p : Nat} {D : Dentry}

theorem Extends.allocated (hx : s.Extends s') (hn : Allocated s.vol.sb s.vol.disk n) :
    Allocated s'.vol.sb s'.vol.disk n := by
  rw [hx.sb, hx.disk]
  exact hn

theorem Extends.sameFile (hx : s.Extends s') (n : Nat) : s.vol.SameFile s'.vol n :=
  sameFile_of_disk hx.sb hx.disk n

/-- An inode that cannot be made. -/
theorem Tried.full (ht : Tried s s₂ path) (hw : inodeCreate s₂.vol mode = (none, w))
    (hn : Allocated s.vol.sb s.vol.disk n) : s.vol.SameFile w n := by
  have hn₂ := ht.ext.allocated hn
  exact (ht.ext.sameFile n).trans ((ht.coherent.ready.create_none hw).same
    (hn₂.bounds ht.coherent.ready.inv.layout).1 hn₂)

/-- An inode that is made and destroyed again. -/
theorem Tried.undone (ht : Tried s s₂ path) (hcr : s₂.vol.Creates w p m mode)
    (hu : inodeDestroy w p = .ok u) (hn : Allocated s.vol.sb s.vol.disk n) : s.vol.SameFile u n := by
  have hn₂ := ht.ext.allocated hn
  exact ((ht.ext.sameFile n).trans (hcr.sameFile hn₂)).trans ((hcr.ready.destroy hcr.new hu).same
    (fun h => hcr.fresh (h ▸ hn₂)) (hcr.alloc.mpr (.inl hn₂)))

/-- A new inode in a directory: the other files are as they were, and none of them is the new one. -/
theorem Spot.kept (hsp : Spot s s₂ path d n D) (hcr : s₂.vol.Creates w p m mode)
    (ha : w.Adds u n m (basename path)) (hk : Allocated s.vol.sb s.vol.disk k) (hkn : k ≠ n) :
    s.vol.SameFile u k ∧ Allocated u.sb u.disk k ∧ k ≠ m := by
  have hk₂ := hsp.ext.allocated hk
  have hkw := hcr.alloc.mpr (.inl hk₂)
  exact ⟨((hsp.ext.sameFile k).trans (hcr.sameFile hk₂)).trans (ha.same hkn hkw), ha.alloc.mpr hkw,
    fun h => hcr.fresh (h ▸ hk₂)⟩

theorem Spot.ne (hsp : Spot s s₂ path d n D) (ht : s.Takes path) (hk : s.vol.isDirectory k = false) : k ≠ n :=
  ne_of_isDirectory (ht hsp.leads).1 hk

theorem Failed.sameFile (h : Failed s path s') (hn : Allocated s.vol.sb s.vol.disk n) :
    s.vol.SameFile s'.vol n := by
  cases h with
  | tried ht => exact ht.ext.sameFile n
  | full ht hw => exact ht.full hw hn
  | undone ht hw hcr hu => exact ht.undone hcr hu hn

theorem CreateEnds.kept (h : CreateEnds s path flags mode r s') (ht : s.Takes path)
    (hk : Allocated s.vol.sb s.vol.disk k) (hfile : s.vol.isDirectory k = false) :
    s.vol.SameFile s'.vol k := by
  cases h with
  | failed _ hf => exact hf.sameFile hk
  | there hf => exact hf.ext.sameFile k
  | linked hsp hlen hcr ha => exact (hsp.kept hcr ha hk (hsp.ne ht hfile)).1

theorem MkdirEnds.kept (h : MkdirEnds s path mode r s') (ht : s.Takes path)
    (hk : Allocated s.vol.sb s.vol.disk k) (hfile : s.vol.isDirectory k = false) :
    s.vol.SameFile s'.vol k := by
  cases h with
  | failed _ hf => exact hf.sameFile hk
  | linked hsp hlen hcr ha hself hparent =>
    obtain ⟨hsame, hku, hkm⟩ := hsp.kept hcr ha hk (hsp.ne ht hfile)
    exact (hsame.trans (hself.same hkm hku)).trans (hparent.same hkm (hself.alloc.mpr hku))

theorem UnlinkEnds.kept (h : UnlinkEnds s path r s') (hk : Allocated s.vol.sb s.vol.disk k)
    (hfile : s.vol.isDirectory k = false) (hk' : Allocated s'.vol.sb s'.vol.disk k) :
    s.vol.SameFile s'.vol k := by
  cases h with
  | tooLong => exact .refl _ _
  | missing hf => exact hf.ext.sameFile k
  | isDirectory hf => exact hf.ext.sameFile k
  | unlinked hf hroot _ hu =>
    have hsame := hf.ext.sameFile k
    exact hsame.trans (hu.clears.same (ne_of_isDirectory hu.isDir (hsame.isDirectory.trans hfile))
      (hf.ext.allocated hk))
  | destroyed hf hroot _ hu hd =>
    have hsame := hf.ext.sameFile k
    have hk₁ := hf.ext.allocated hk
    have hdes := hu.clears.ready.destroy ((hu.clears.index _).trans hu.index) hd
    exact (hsame.trans (hu.clears.same (ne_of_isDirectory hu.isDir (hsame.isDirectory.trans hfile))
      hk₁)).trans (hdes.same (hdes.alloc.mp hk').2 (hu.clears.alloc.mpr hk₁))

theorem RmdirEnds.kept (h : RmdirEnds s path r s') (hk : Allocated s.vol.sb s.vol.disk k)
    (hfile : s.vol.isDirectory k = false) : s.vol.SameFile s'.vol k := by
  cases h with
  | tooLong => exact .refl _ _
  | missing hf => exact hf.ext.sameFile k
  | refused hf => exact hf.ext.sameFile k
  | removed hf hD hl hn hdir htwo hdots hrun hdes =>
    have hsame := hf.ext.sameFile k
    have hk₁ := hf.ext.allocated hk
    have hfile₁ := hsame.isDirectory.trans hfile
    obtain ⟨hs₂, hkeeps⟩ := hf.coherent.housed.removeDentryAndChildren hrun
    obtain ⟨u, hu, hok⟩ := bind_eq_ok hdes
    cases hok
    exact (hsame.trans (hkeeps.same hk₁ hfile₁)).trans ((hs₂.ready.destroy ((hkeeps.index _).trans hn)
      hu).same (ne_of_isDirectory hdir hfile₁) (hkeeps.alloc.mpr hk₁))

end Kept

end Fs

/-- Nothing is created in a file that is not a directory, or in a directory that cannot grow. -/
def FsAct.Settled (s : Fs) : FsAct → Prop
  | create path _ _ => s.Takes path
  | mkdir path _ => s.Takes path
  | _ => True

/-- **Regular files that are not removed keep their size and their bytes.** The offsets are those
with a block number of 16 bits. -/
theorem files_kept {as : List FsAct} {a : FsAct} (hv : v.Formed)
    (hr : Run (Guarded FsAct.Sound FsStep) (Fs.mount v) as s) (ha : a.Settled s) (h : FsStep s a s')
    (hn : Allocated s.vol.sb s.vol.disk n) (hfile : s.vol.isDirectory n = false)
    (hn' : Allocated s'.vol.sb s'.vol.disk n) :
    s'.vol.sizeOf n = s.vol.sizeOf n ∧ ∀ x < maxOffset, s'.vol.fileAt n x = s.vol.fileAt n x := by
  have hc := (tidy_of_run hv hr).toCoherent
  obtain ⟨h0, h⟩ := h
  have hsame : s.vol.SameFile s'.vol n := by
    cases a with
    | lookup path =>
      obtain ⟨r, hrun⟩ := map_snd_eq_ok h
      obtain ⟨r', s₁, hrun', hf⟩ := Fs.dentryLookup_found hc path
      rw [hrun] at hrun'
      cases hrun'
      exact hf.ext.sameFile n
    | create path flags mode =>
      obtain ⟨r, hrun⟩ := map_snd_eq_ok h
      exact (Fs.create_ends hc h0 ha hrun).kept ha hn hfile
    | mkdir path mode =>
      obtain ⟨r, hrun⟩ := map_snd_eq_ok h
      exact (Fs.mkdir_ends hc h0 ha hrun).kept ha hn hfile
    | unlink path =>
      obtain ⟨r, hrun⟩ := map_snd_eq_ok h
      exact (Fs.unlink_ends hc hrun).kept hn hfile hn'
    | rmdir path =>
      obtain ⟨r, hrun⟩ := map_snd_eq_ok h
      exact (Fs.rmdir_ends hc hrun).kept hn hfile
  exact ⟨hsame.size, fun x hx => hsame.bytes hx⟩

/-- A file is made, and another one beside it. -/
theorem files_kept_root : ∃ s s', Run (Guarded FsAct.Sound FsStep) (Fs.mount (rootVolume false))
    [.create [47, 102] 0 0o644] s ∧ FsStep s (.create [47, 103] 0 0o644) s'
    ∧ s'.vol.sizeOf 2 = s.vol.sizeOf 2 ∧ ∀ x < maxOffset, s'.vol.fileAt 2 x = s.vol.fileAt 2 x := by
  obtain ⟨s, hr, hs⟩ := Run.of_checked_probe (fun s a => a.Near s) (fun s a => FsAct.call s a) .fault
    (Fs.mount (rootVolume false)) [.create [47, 102] 0 0o644]
    (fun s => decide (FsAct.Near s (.create [47, 103] 0 0o644) ∧ Allocated s.vol.sb s.vol.disk 2
      ∧ s.vol.isDirectory 2 = false ∧ (FsAct.call s (.create [47, 103] 0 0o644)).toOption.map
        (fun s => decide (Allocated s.vol.sb s.vol.disk 2)) = some true))
    (b := true) (by decide)
  obtain ⟨hnear, hn, hfile, hstep⟩ := of_decide_eq_true hs
  obtain ⟨s', hstep, hn'⟩ := eq_ok_of_probe hstep
  refine ⟨s, s', near_run hr, ⟨hnear.1, hstep⟩, ?_⟩
  exact files_kept rootVolume_formed (near_run hr) (a := .create [47, 103] 0 0o644) hnear.sound.2.1
    ⟨hnear.1, hstep⟩ hn hfile (of_decide_eq_true hn')

/-- An entry that is created in a file goes to the end of the file. -/
theorem file_overwritten : ¬ ∀ (v : Volume) (as : List FsAct) (a : FsAct) (s s' : Fs) (n : Nat),
    v.Formed → Run FsStep (Fs.mount v) as s → FsStep s a s' → Allocated s.vol.sb s.vol.disk n →
    s.vol.isDirectory n = false → Allocated s'.vol.sb s'.vol.disk n →
    s'.vol.sizeOf n = s.vol.sizeOf n ∧ ∀ x < maxOffset, s'.vol.fileAt n x = s.vol.fileAt n x := by
  intro hall
  obtain ⟨s, hr, hs⟩ := Run.of_checked_probe (fun _ a => FsAct.Spelled a) (fun s a => FsAct.call s a)
    .fault (Fs.mount (rootVolume false)) [.create [47, 102] 0 0o644]
    (fun s => decide (Allocated s.vol.sb s.vol.disk 2 ∧ s.vol.isDirectory 2 = false
      ∧ s.vol.sizeOf 2 = 0 ∧ (FsAct.call s (.create [47, 102, 47, 103] 0 0o644)).toOption.map
        (fun s => decide (Allocated s.vol.sb s.vol.disk 2 ∧ s.vol.sizeOf 2 = 64)) = some true))
    (b := true) (by decide)
  obtain ⟨hn, hfile, hsize, hstep⟩ := of_decide_eq_true hs
  obtain ⟨s', hstep, hq⟩ := eq_ok_of_probe hstep
  obtain ⟨hn', hsize'⟩ := of_decide_eq_true hq
  have hkept := (hall _ _ (.create [47, 102, 47, 103] 0 0o644) s s' 2 rootVolume_formed hr
    ⟨show 0 ∉ ([47, 102, 47, 103] : CString) by decide, hstep⟩ hn hfile hn').1
  rw [hsize, hsize'] at hkept
  cases hkept

/-! ## Calls that fail -/

/-- The bitmaps and the inodes in use are as they were. -/
structure Volume.SameMaps (v w : Volume) : Prop where
  sb : w.sb = v.sb
  imap : ∀ {m}, v.sb.IsInode m → imapBit w.disk m = imapBit v.disk m
  zmap : ∀ {z}, v.sb.IsZone z → zmapBit w.sb w.disk z = zmapBit v.sb v.disk z
  inode : ∀ {m}, Allocated v.sb v.disk m → readInode w.sb w.disk m = readInode v.sb v.disk m

theorem Volume.SameMaps.trans (h : v.SameMaps w) (h' : w.SameMaps u) : v.SameMaps u where
  sb := h'.sb.trans h.sb
  imap := fun hm => (h'.imap (h.sb ▸ hm)).trans (h.imap hm)
  zmap := fun hz => (h'.zmap (h.sb ▸ hz)).trans (h.zmap hz)
  inode := fun hm => (h'.inode ⟨h.sb ▸ hm.1, (h.imap hm.1).trans hm.2⟩).trans (h.inode hm)

theorem Fs.Extends.sameMaps (hx : s.Extends s') : s.vol.SameMaps s'.vol where
  sb := hx.sb
  imap := fun _ => by rw [hx.disk]
  zmap := fun _ => by rw [hx.sb, hx.disk]
  inode := fun _ => by rw [hx.sb, hx.disk]

/-- An inode that cannot be made leaves no trace. -/
theorem Volume.Inv.create_none (hv : v.Inv) (h : inodeCreate v mode = (none, w)) : v.SameMaps w := by
  have hc : Created v mode none w := by
    have := inodeCreate_cases hv mode
    rwa [h] at this
  cases hc with
  | none himap htab hzmap _ =>
    exact ⟨rfl, fun hm => himap _ hm, fun hz => hzmap _ hz,
      fun hm => readInode_congr hv.layout hm.1 (htab _ (Nat.le_add_right ..))⟩

/-- **`inode_destroy` takes `inode_create` back.** -/
theorem Volume.Inv.create_destroy {p : Nat} (hv : v.Inv) (h : inodeCreate v mode = (some p, w))
    (hu : inodeDestroy w p = .ok u) : v.SameMaps u := by
  have hl := hv.layout
  have hc : Created v mode (some p) w := by
    have := inodeCreate_cases hv mode
    rwa [h] at this
  cases hc with
  | @made n z d hn hun hz0 himap hread hself hzone hfree hzmap hbit hzones =>
    have hobj : ((v.inodes.alloc ⟨n, 0, 0, 0⟩).modify v.inodes.next fun i =>
        { i with mode := mode }).get v.inodes.next = some ⟨n, mode, 0, 0⟩ :=
      Store.modify_self_of Store.alloc_self rfl
    obtain ⟨hfirst, hlast, hclear⟩ := mem_freeZones.mp
      (show z ∈ freeZones v.sb v.disk by rw [hfree]; exact List.mem_cons_self ..)
    have hzone' : v.sb.IsZone z := ⟨hfirst, Nat.lt_of_succ_lt hlast⟩
    have hslot : iZone (readInode v.sb d n) 0 = z := by
      rw [iZone_congr hself (by decide), iZone_setZone_self,
        Nat.mod_eq_of_lt (Nat.lt_trans (hzone'.bounds hl hv.small).1 (by decide))]
    -- the new inode is empty, so that only its zone goes
    unfold inodeDestroy inodeTruncate at hu
    simp only [hobj, if_pos, bind, Except.bind, hslot] at hu
    cases hu
    obtain ⟨hd1, hm1, _⟩ := unmarkZmap_spec hl hv.small d hzone'
    generalize unmarkZmap v.sb d z = d1 at hd1 hm1 ⊢
    obtain ⟨hd2, _, hread2⟩ := writeInode_spec hl d1 hn fun _ => 0
    generalize writeInode v.sb d1 n (fun _ => 0) = d2 at hd2 hread2 ⊢
    obtain ⟨hd3, hb3⟩ := unmarkImap_spec hl d2 hn
    refine ⟨rfl, fun {m} hm => ?_, fun {z'} hz' => ?_, fun {m} hm => ?_⟩
    · show imapBit (unmarkImap d2 n) m = _
      rw [hb3, hd2.imapBit hl hm, hd1.imapBit hl hm, himap m hm]
      by_cases hmn : m = n
      · subst hmn
        simp [hun]
      · simp [hmn]
    · show zmapBit v.sb (unmarkImap d2 n) z' = _
      rw [hd3.zmapBit hl hz', hd2.zmapBit hl hz', hm1 z' hz', hzmap z' hz']
      by_cases hzz : z' = z
      · subst hzz
        simp [hclear]
      · simp [hzz]
    · have hmn : m ≠ n := by
        rintro rfl
        rw [hm.2] at hun
        cases hun
      show readInode v.sb (unmarkImap d2 n) m = _
      rw [hd3.readInode hl hm.1, hread2 m hm.1 hmn, hd1.readInode hl hm.1, hread m hm.1 hmn]

namespace Fs

variable {r : Int}

theorem CreateEnds.failed_of_neg (h : CreateEnds s path flags mode r s') (hr : r < 0) : Failed s path s' := by
  cases h with
  | failed _ hf => exact hf
  | there hf => exact .tried hf.tried
  | linked => cases hr

theorem MkdirEnds.failed_of_neg (h : MkdirEnds s path mode r s') (hr : r < 0) : Failed s path s' := by
  cases h with
  | failed _ hf => exact hf
  | linked => cases hr

theorem Failed.sameMaps (h : Failed s path s') : s.vol.SameMaps s'.vol := by
  cases h with
  | tried ht => exact ht.ext.sameMaps
  | full ht hw => exact ht.ext.sameMaps.trans (ht.coherent.ready.inv.create_none hw)
  | undone ht hw hcr hu => exact ht.ext.sameMaps.trans (ht.coherent.ready.inv.create_destroy hw hu)

theorem Failed.ready (h : Failed s path s') : s'.vol.Ready := by
  cases h with
  | tried ht => exact ht.coherent.ready
  | full ht hw => exact (ht.coherent.ready.create_none hw).ready
  | undone ht hw hcr hu => exact (hcr.ready.destroy hcr.new hu).ready

end Fs

/-- **A call that fails changes nothing on disk**, and every inode in memory is allocated. -/
theorem failed_create {as : List FsAct} {r : Int} (hv : v.Formed)
    (hr : Run (Guarded FsAct.Sound FsStep) (Fs.mount v) as s) (h0 : 0 ∉ path) (ht : s.Takes path)
    (hneg : r < 0)
    (h : s.create path flags mode = .ok (r, s') ∨ s.mkdir path mode = .ok (r, s')) :
    (∀ m, s.vol.sb.IsInode m → imapBit s'.vol.disk m = imapBit s.vol.disk m)
      ∧ (∀ z, s.vol.sb.IsZone z → zmapBit s'.vol.sb s'.vol.disk z = zmapBit s.vol.sb s.vol.disk z)
      ∧ (∀ n, Allocated s.vol.sb s.vol.disk n →
          readInode s'.vol.sb s'.vol.disk n = readInode s.vol.sb s.vol.disk n
          ∧ ∀ x < maxOffset, s'.vol.fileAt n x = s.vol.fileAt n x)
      ∧ ∀ p inode, s'.vol.inodes.get p = some inode → Allocated s'.vol.sb s'.vol.disk inode.index := by
  have hc := (tidy_of_run hv hr).toCoherent
  have hf : Fs.Failed s path s' := by
    rcases h with h | h
    · exact (Fs.create_ends hc h0 ht h).failed_of_neg hneg
    · exact (Fs.mkdir_ends hc h0 ht h).failed_of_neg hneg
  refine ⟨fun m hm => hf.sameMaps.imap hm, fun z hz => hf.sameMaps.zmap hz, fun n hn => ?_,
    fun p inode hp => (hf.ready.inv.live hp).1⟩
  exact ⟨hf.sameMaps.inode hn, fun x hx => (hf.sameFile hn).bytes hx⟩

/-- A name of 61 bytes, for which an inode is made and destroyed. -/
def longPath : CString := 47 :: List.replicate 61 97

theorem failed_create_long : ∃ s', (Fs.mount (rootVolume false)).create longPath 0 0o644 = .ok (-1, s')
    ∧ ∀ z, (rootVolume false).sb.IsZone z → zmapBit s'.vol.sb s'.vol.disk z
      = zmapBit (rootVolume false).sb (rootVolume false).disk z := by
  have hnear : FsAct.Near (Fs.mount (rootVolume false)) (.create longPath 0 0o644) := by decide
  obtain ⟨⟨r, s'⟩, hrun, hr⟩ := eq_ok_of_probe (show ((Fs.mount (rootVolume false)).create longPath 0
    0o644).toOption.map Prod.fst = some (-1) by decide)
  obtain rfl : r = -1 := hr
  exact ⟨s', hrun, (failed_create rootVolume_formed .nil hnear.1 hnear.sound.2.1 (by decide)
    (.inl hrun)).2.1⟩

/-- The directory `/a` is removed as `/a/.`, and its entry in `/` stays. A lookup through `/.` that
finds nothing loads the inode of this entry again. -/
theorem failed_create_loads : ¬ ∀ (v : Volume) (as : List FsAct) (s s' : Fs) (path : CString)
    (flags mode : Nat) (r : Int), v.Formed → v.sb.sZones ≤ 65535 → Run FsStep (Fs.mount v) as s →
    0 ∉ path → r < 0 → (s.create path flags mode = .ok (r, s') ∨ s.mkdir path mode = .ok (r, s')) →
    (∀ m, s.vol.sb.IsInode m → imapBit s'.vol.disk m = imapBit s.vol.disk m)
      ∧ (∀ z, s.vol.sb.IsZone z → zmapBit s'.vol.sb s'.vol.disk z = zmapBit s.vol.sb s.vol.disk z)
      ∧ (∀ n, Allocated s.vol.sb s.vol.disk n →
          readInode s'.vol.sb s'.vol.disk n = readInode s.vol.sb s.vol.disk n
          ∧ ∀ x < maxOffset, s'.vol.fileAt n x = s.vol.fileAt n x)
      ∧ ∀ p inode, s'.vol.inodes.get p = some inode → Allocated s'.vol.sb s'.vol.disk inode.index := by
  intro hall
  obtain ⟨s, hr, hs⟩ := Run.of_checked_probe (fun _ a => FsAct.Spelled a) (fun s a => FsAct.call s a)
    .fault (Fs.mount (rootVolume false)) [.mkdir [47, 97] 0o755, .rmdir [47, 97, 47, 46]]
    (fun s => (s.create [47, 46, 47, 98, 47, 99] 0 0o644).toOption.map fun r =>
      (r.1, r.2.vol.list.map fun p => (r.2.vol.inodes.get p).map fun inode =>
        decide (Allocated r.2.vol.sb r.2.vol.disk inode.index)))
    (b := some (-17, [some false, some true])) (by decide)
  obtain ⟨⟨r, s'⟩, hrun, hq⟩ := eq_ok_of_probe hs
  obtain ⟨hneg, hlist⟩ := Prod.mk.inj hq
  obtain rfl : r = -17 := hneg
  obtain ⟨p, _, hp⟩ := List.mem_map.mp (hlist ▸ List.mem_cons_self .. : some false ∈ _)
  obtain ⟨inode, hget, hun⟩ := Option.map_eq_some_iff.mp hp
  exact of_decide_eq_false hun ((hall _ _ s s' [47, 46, 47, 98, 47, 99] 0 0o644 (-17) rootVolume_formed
    (by decide) hr (by decide) (by decide) (.inl hrun)).2.2.2 p inode hget)

end Cyanurus
