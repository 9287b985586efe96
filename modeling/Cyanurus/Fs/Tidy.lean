import Cyanurus.Fs.Calls

/-!
# Calls that keep the cache tidy

`Fs.Tidy` is kept by lookups, `fs_create`, `fs_mkdir`, `fs_unlink` and `fs_rmdir` when no path has
a name `.` or `..`, nothing is created in a file that is not a directory, the root is not removed,
and there are zones for the records. Each call is followed step by step: an inode that is made
fits under a plain name that is free, and one that is destroyed has lost all its names before.
-/

namespace Cyanurus

namespace Fs

variable {s s' : Fs} {d n m p : Nat} {D : Dentry} {path : CString}

/-! ## The steps of a call -/

theorem Tried.tidy (h : Tried s s' path) (hs : s.Tidy) (hp : PlainPath path) : s'.Tidy :=
  ⟨h.coherent, h.plain hs.plain hp⟩

/-- Only dentries that are there are loaded. -/
theorem Tidy.revolume {w : Volume} (hs : s.Tidy) (hc : Coherent { s with vol := w }) :
    Tidy { s with vol := w } := ⟨hc, hs.plain⟩

/-- No entry names an inode that is not allocated. -/
theorem Coherent.unnamed (hc : s.Coherent) (hm : ¬ Allocated s.vol.sb s.vol.disk m) {k : Nat}
    {x : CString} (hk : Allocated s.vol.sb s.vol.disk k) : (m, x) ∉ s.vol.entries k := fun h =>
  hm (hc.tree.used hk h)

/-- An inode that was just made is destroyed. -/
theorem Tidy.undo {w u : Volume} {mode : Nat} (hs : s.Tidy) (hcr : s.vol.Creates w p m mode)
    (hu : inodeDestroy w p = .ok u) : Tidy { s with vol := u } := by
  have hc := hs.toCoherent.create hcr
  have hd : w.Destroys u p m := hcr.ready.destroy hcr.new hu
  have h1 : m ≠ 1 := fun h => hcr.fresh (h ▸ hs.tree.root)
  refine ⟨hc.destroy hcr.new hd h1 (fun {k e} hk ha he hem => ?_) hcr.entries_new, hs.plain⟩
  have ha' : Allocated s.vol.sb s.vol.disk k := (hcr.alloc.mp ha).resolve_right hk
  rw [show Volume.entries _ k = s.vol.entries k from hcr.entries ha'] at he
  cases hem
  exact hs.unnamed hcr.fresh ha' he

/-- A link that fits into the tree. -/
theorem Tidy.link {w : Volume} {k : Nat} {name : CString} (hs : s.Tidy) (hd : s.dentries.get d = some D)
    (hl : D.loaded = true) (hn : s.vol.indexOf D.inode = some n) (hdir : s.vol.isDirectory n = true)
    (hp : s.vol.indexOf p = some m) (hroom : s.vol.Room (k + 6)) (ha : s.vol.Adds w n m name)
    (hfit : s.vol.tree.Fits signs n m name) :
    Tidy ⟨w, attach s.dentries d ⟨name, false, 0, p, d, []⟩, s.root⟩
      ∧ w.entries n = s.vol.entries n ++ [(m, name)] := by
  have hent := ha.entries hfit.dir hdir (Allocated.bounds hs.ready.inv.layout hfit.node).1 (ha.fits hroom)
  exact ⟨⟨hs.toCoherent.link hd hl hn (hs.only hd hl hn) hp ha hent hfit,
    LoadedPlain.attached hs.plain hd hl⟩, hent⟩

/-- A new inode fits under any plain name that is free. -/
theorem fits_new {v : Volume} {name : CString} (hn : Allocated v.sb v.disk n)
    (hm : Allocated v.sb v.disk m) (h1 : m ≠ 1) (hplain : signs.Plain name)
    (hfree : ∀ k, (k, name) ∉ v.entries n)
    (hno : ∀ {k x}, Allocated v.sb v.disk k → (m, x) ∉ v.entries k) : v.tree.Fits signs n m name where
  dir := hn
  node := hm
  free := fun h => by
    obtain ⟨e, he, rfl⟩ := List.mem_map.mp h
    exact hfree e.1 he
  plain := fun _ => ⟨h1, fun hk _ => hno hk⟩
  self := fun h => absurd h hplain.1
  parent := fun h => absurd h hplain.2

/-! ## `fs_create` -/

section Create

variable {s₂ : Fs} {w u : Volume} {mode k : Nat}

theorem Spot.mem_names (hsp : Spot s s₂ path d n D) : basename path ∈ pathNames path := by
  rw [hsp.names]
  exact List.mem_append_right _ (List.mem_singleton_self _)

/-- The new inode is linked under the last name of the path. -/
theorem Spot.linked (hsp : Spot s s₂ path d n D) (hs : s.Tidy) (hp : PlainPath path) (ht : s.Takes path)
    (hroom : s₂.vol.Room (k + 7)) (hcr : s₂.vol.Creates w p m mode) (ha : w.Adds u n m (basename path)) :
    Tidy ⟨u, attach s₂.dentries d ⟨basename path, false, 0, p, d, []⟩, s₂.root⟩
      ∧ u.entries n = w.entries n ++ [(m, basename path)] ∧ u.Room k := by
  have hs₂ := hsp.toTried.tidy hs hp
  have hs₃ : Tidy { s₂ with vol := w } := hs₂.revolume (hs₂.toCoherent.create hcr)
  have hna := hsp.allocated
  have hdir := (hcr.sameFile hna).isDirectory.trans (hsp.takes ht).1
  have hroom' : w.Room (k + 6) := hcr.room hroom
  have hwent : ∀ {k}, Allocated w.sb w.disk k → ∀ {e}, e ∈ w.entries k → e ∈ s₂.vol.entries k := by
    intro k hk e he
    rcases hcr.alloc.mp hk with hk | rfl
    · rwa [hcr.entries hk] at he
    · rw [hcr.entries_new] at he
      cases he
  have hfit : w.tree.Fits signs n m (basename path) := by
    refine fits_new (hcr.alloc.mpr (.inl hna)) (hcr.alloc.mpr (.inr rfl))
      (fun h => hcr.fresh (h ▸ hs₂.tree.root)) (hp hsp.abs _ hsp.mem_names) (fun j hj => ?_)
      fun {j x} hj hx => ?_
    · refine hsp.free j ?_
      rw [← hsp.ext.entries]
      exact hwent (hcr.alloc.mpr (.inl hna)) hj
    · rcases hcr.alloc.mp hj with hj' | rfl
      · exact hs₂.unnamed hcr.fresh hj' (hwent hj hx)
      · rw [hcr.entries_new] at hx
        cases hx
  obtain ⟨htidy, hent⟩ := hs₃.link hsp.get hsp.loaded (hsp.created hcr).2.1 hdir hcr.new hroom' ha hfit
  exact ⟨htidy, hent, ha.room hroom'⟩

theorem Extends.room (hx : s.Extends s') (h : s.vol.Room k) : s'.vol.Room k := by
  unfold Volume.Room at *
  rw [hx.sb, hx.disk]
  exact h

/-- What is taken back leaves the cache tidy. -/
theorem Failed.tidy (h : Failed s path s') (hs : s.Tidy) (hp : PlainPath path) : s'.Tidy := by
  cases h with
  | tried ht => exact ht.tidy hs hp
  | full ht hw =>
    have hs₂ := ht.tidy hs hp
    exact hs₂.revolume (hs₂.toCoherent.create_none (hs₂.ready.create_none hw))
  | undone ht hw hcr hu => exact (ht.tidy hs hp).undo hcr hu

/-- **`fs_create` keeps the cache tidy.** -/
theorem CreateEnds.tidy {flags : Nat} {r : Int} (h : CreateEnds s path flags mode r s') (hs : s.Tidy)
    (hp : PlainPath path) (ht : s.Takes path) (hroom : s.vol.Room 7) : s'.Tidy := by
  cases h with
  | failed _ hf => exact hf.tidy hs hp
  | there hf => exact hf.tried.tidy hs hp
  | linked hsp hlen hcr ha => exact (hsp.linked hs hp ht (hsp.ext.room hroom) hcr ha).1

end Create

/-! ## `fs_mkdir` -/

section Mkdir

variable {s₂ : Fs} {w u u₁ u₂ : Volume} {mode : Nat}

theorem dot_not_plain {name : CString} (h : name = dot ∨ name = dotdot) : ¬ signs.Plain name :=
  fun hp => h.elim hp.1 hp.2

/-- A directory can be linked in itself. -/
theorem fits_dot {v : Volume} (hm : Allocated v.sb v.disk m) (hnil : v.entries m = []) :
    v.tree.Fits signs m m dot where
  dir := hm
  node := hm
  free := fun h => by
    rw [show v.tree.entries m = [] from hnil] at h
    cases h
  plain := fun h => absurd h (dot_not_plain (.inl rfl))
  self := fun _ => rfl
  parent := fun h => absurd h (by decide)

/-- The directory that a plain name is in can be linked as parent. -/
theorem fits_dotdot {v : Volume} {name : CString} (hm : Allocated v.sb v.disk m)
    (hn : Allocated v.sb v.disk n) (hent : v.entries m = [(m, dot)]) (hplain : signs.Plain name)
    (hname : (m, name) ∈ v.entries n) : v.tree.Fits signs m n dotdot where
  dir := hm
  node := hn
  free := fun h => by
    rw [show v.tree.entries m = [(m, dot)] from hent] at h
    have heq : dotdot = dot := List.mem_singleton.mp h
    cases heq
  plain := fun h => absurd h (dot_not_plain (.inr rfl))
  self := fun h => absurd h (by decide)
  parent := fun _ => ⟨name, hplain, hname⟩

/-- **The new directory with its two entries.** -/
theorem Spot.filled (hsp : Spot s s₂ path d n D) (hs : s.Tidy) (hp : PlainPath path) (ht : s.Takes path)
    (hroom : s₂.vol.Room 19) (hcr : s₂.vol.Creates w p m (mode &&& 0o777 ||| sIfdir))
    (ha : w.Adds u n m (basename path)) (hself : u.Adds u₁ m m dot) (hparent : u₁.Adds u₂ m n dotdot) :
    Tidy ⟨u₂, mkdirDentries s₂.dentries d p D.inode (basename path), s₂.root⟩
      ∧ u₂.entries m = [(m, dot), (n, dotdot)] ∧ (m, basename path) ∈ u₂.entries n := by
  obtain ⟨hs₃, hent, hroom₃⟩ := hsp.linked (k := 12) hs hp ht hroom hcr ha
  have hplain := hp hsp.abs _ hsp.mem_names
  have hma : Allocated w.sb w.disk m := hcr.alloc.mpr (.inr rfl)
  have hma' : Allocated u.sb u.disk m := ha.alloc.mpr hma
  have hna : Allocated u.sb u.disk n := ha.alloc.mpr (hcr.alloc.mpr (.inl hsp.allocated))
  have hne : m ≠ n := fun heq => hcr.fresh (heq ▸ hsp.allocated)
  have hm : u.indexOf p = some m := (ha.index p).trans hcr.new
  have hn : u.indexOf D.inode = some n := (ha.index _).trans (hsp.created hcr).2.1
  have hdir : u.isDirectory m = true := by
    rw [ha.isDirectory hma, hcr.isDirectory_new, isDir_mode]
    decide
  have hsize : u.sizeOf m = 0 := (ha.same hne hma).size.trans hcr.size
  -- it is loaded
  have hnew := attach_new (C := ⟨basename path, false, 0, p, d, []⟩) hsp.get
  have hs₄ : Tidy ⟨u, loadEmpty (attach s₂.dentries d ⟨basename path, false, 0, p, d, []⟩)
      s₂.dentries.next, s₂.root⟩ := by
    obtain ⟨s', hread, hr⟩ := readChildren_read hs₃.toCoherent hnew
    rw [readChildren_empty hs₃.ready hnew rfl hm hdir hsize] at hread
    cases hread
    exact ⟨hr.coherent, hr.plain hs₃.plain ⟨_, hnew, .inr hplain⟩⟩
  have hload := loadEmpty_self hnew
  -- it is linked in itself
  obtain ⟨hs₅, hent₁⟩ := hs₄.link hload rfl hm hdir hm (k := 6) hroom₃ hself
    (fits_dot hma' (entries_of_empty hsize))
  rw [show Volume.entries u m = [] from entries_of_empty hsize, List.nil_append] at hent₁
  -- and so is its parent
  have hname : (m, basename path) ∈ u₁.entries n := by
    rw [hself.entries_of_ne (Ne.symm hne) hna, hent]
    exact List.mem_append_right _ (List.mem_singleton_self _)
  have hroom₄ : u₁.Room (0 + 6) := hself.room hroom₃
  obtain ⟨hs₆, hent₂⟩ := hs₅.link (attach_self hload) rfl ((hself.index p).trans hm)
    ((hself.isDirectory hma').trans hdir) ((hself.index D.inode).trans hn) hroom₄ hparent
    (fits_dotdot (hself.alloc.mpr hma') (hself.alloc.mpr hna) hent₁ hplain hname)
  refine ⟨hs₆, by rw [hent₂, show Volume.entries u₁ m = _ from hent₁]; rfl, ?_⟩
  rw [hparent.entries_of_ne (Ne.symm hne) (hself.alloc.mpr hna)]
  exact hname

/-- **`fs_mkdir` keeps the cache tidy.** -/
theorem MkdirEnds.tidy {r : Int} (h : MkdirEnds s path mode r s') (hs : s.Tidy)
    (hp : PlainPath path) (ht : s.Takes path) (hroom : s.vol.Room 19) : s'.Tidy := by
  cases h with
  | failed _ hf => exact hf.tidy hs hp
  | linked hsp hlen hcr ha hself hparent =>
    exact (hsp.filled hs hp ht (hsp.ext.room hroom) hcr ha hself hparent).1

end Mkdir

/-! ## `fs_unlink` -/

section Unlink

variable {s₁ : Fs} {w u : Volume} {c i : Nat} {C P : Dentry}

/-- A dentry has no children when its inode has no entries. -/
theorem Coherent.childless (hc : s.Coherent) (hd : s.dentries.get d = some D)
    (hn : s.vol.indexOf D.inode = some n) (hnil : s.vol.entries n = []) : D.children = [] := by
  cases hl : D.loaded with
  | false => exact hc.links.unloaded hd hl
  | true =>
    have hperm := hc.loaded hd hl hn
    rw [hnil, List.perm_nil, List.map_eq_nil_iff] at hperm
    exact hperm

/-- The dentry of an entry goes when nothing hangs on it. -/
theorem Tidy.unlink (hs : s.Tidy) (hroot : c ≠ s.root) (hu : Unlinks s w c n m i C P)
    (hnil : C.children = []) (hx : signs.Plain C.name → s.vol.entries m = []) :
    Tidy ⟨w, detach s.dentries c C.parent, s.root⟩ := by
  have hne : C.parent ≠ c := Nat.ne_of_lt (hs.links.up hu.get hroot).1
  refine ⟨hs.toCoherent.unlink hu.get hroot hu.parent hu.loaded hu.dir (hs.only hu.parent hu.loaded hu.dir)
    hu.index hnil hu.clears hu.slot fun hp k hk => ?_, LoadedPlain.detached hs.plain hu.parent hne⟩
  rw [hx hp] at hk
  cases hk

/-- After the plain name of an inode without entries was removed, nothing names it. -/
theorem Unlinks.unnamed (hu : Unlinks s w c n m i C P) (hc : s.Coherent) (hplain : signs.Plain C.name)
    (hnil : s.vol.entries m = []) (h1 : m ≠ 1) : Unnamed w m := by
  have hna := hc.ready.allocated hu.dir
  have hperm := hu.clears.entries hna hu.isDir
  rw [hu.slot] at hperm
  have hold : (m, C.name) ∈ s.vol.entries n := hperm.mem_iff.mpr (List.mem_cons_self ..)
  intro k e hkm hk he hem
  obtain ⟨a, x⟩ := e
  have hem : m = a := hem.symm
  subst hem
  have hk' : Allocated s.vol.sb s.vol.disk k := hu.clears.alloc.mp hk
  have he' : (m, x) ∈ s.vol.entries k := by
    by_cases hkn : k = n
    · subst hkn
      exact hperm.mem_iff.mpr (List.mem_cons_of_mem _ he)
    · rwa [hu.clears.entries_of_ne hkn hk'] at he
  by_cases hx : signs.Plain x
  · -- it would be the name that was removed
    obtain ⟨rfl, rfl⟩ := hc.tree.owner hk' hna hx hplain he' hold
    have hnames := (hperm.map Prod.snd).nodup_iff.mp (hc.tree.names hna)
    rw [List.map_cons, List.nodup_cons] at hnames
    exact hnames.1 (List.mem_map_of_mem he)
  · rcases NameTree.Signs.not_plain hx with rfl | rfl
    · exact hkm (hc.tree.self hk' he').symm
    · rcases hc.tree.parent hk' he' with ⟨_, h⟩ | ⟨y, _, hy⟩
      · exact h1 h
      · rw [show s.vol.tree.entries m = [] from hnil] at hy
        cases hy

/-- A name of a file is plain. -/
theorem Unlinks.plain (hu : Unlinks s w c n m i C P) (hc : s.Coherent) (hfile : s.vol.isDirectory m = false) :
    signs.Plain C.name := by
  have hna := hc.ready.allocated hu.dir
  have hperm := hu.clears.entries hna hu.isDir
  rw [hu.slot] at hperm
  have hold : (m, C.name) ∈ s.vol.entries n := hperm.mem_iff.mpr (List.mem_cons_self ..)
  by_contra hx
  rcases NameTree.Signs.not_plain hx with hname | hname <;> rw [hname] at hold
  · have hmn : m = n := hc.tree.self hna hold
    rw [hmn, hu.isDir] at hfile
    cases hfile
  · rcases hc.tree.parent hna hold with ⟨_, h⟩ | ⟨y, _, hy⟩
    · rw [show m = 1 from h, hc.rootDir] at hfile
      cases hfile
    · rw [(mem_entries.mp hy).1] at hfile
      cases hfile

theorem entries_of_file {v : Volume} (h : v.isDirectory n = false) : v.entries n = [] := by
  unfold Volume.entries
  rw [h]
  rfl

/-- **`fs_unlink` keeps the cache tidy.** -/
theorem UnlinkEnds.tidy {r : Int} (h : UnlinkEnds s path r s') (hs : s.Tidy) (hp : PlainPath path) :
    s'.Tidy := by
  cases h with
  | tooLong => exact hs
  | missing hf => exact hf.tried.tidy hs hp
  | isDirectory hf => exact hf.tried.tidy hs hp
  | unlinked hf hroot hfile hu =>
    have hs₁ := hf.tried.tidy hs hp
    have hnil := entries_of_file hfile
    exact hs₁.unlink hroot hu (hs₁.childless hu.get hu.index hnil) fun _ => hnil
  | @destroyed s₁ w u c n m i C P hf hroot hfile hu hd =>
    have hs₁ := hf.tried.tidy hs hp
    have hnil := entries_of_file hfile
    have hs₂ := hs₁.unlink hroot hu (hs₁.childless hu.get hu.index hnil) fun _ => hnil
    have hplain := hu.plain hf.coherent hfile
    have hma := hf.coherent.ready.allocated hu.index
    have h1 : m ≠ 1 := by
      rintro rfl
      rw [hf.coherent.rootDir] at hfile
      cases hfile
    have hm : w.indexOf C.inode = some m := (hu.clears.index _).trans hu.index
    have hnil' : w.entries m = [] := entries_of_file ((hu.clears.isDirectory hma).trans hfile)
    exact hs₂.revolume (hs₂.toCoherent.destroy hm (hs₂.ready.destroy hm hd) h1
      (hu.unnamed hf.coherent hplain hnil h1) hnil')

end Unlink

/-! ## `fs_rmdir` -/

section Rmdir

variable {s₁ : Fs} {w u : Volume} {a b : Nat} {A : Dentry}

/-- A dentry `a` that is not loaded is taken from its parent `d`. -/
structure Sheds (s s' : Fs) (d a : Nat) (D : Dentry) : Prop where
  tidy : s'.Tidy
  root : s'.root = s.root
  parent : s'.dentries.get d = some
    { D with nentries := (D.nentries + 2 ^ 32 - 1) % 2 ^ 32, children := D.children.erase a }
  others : ∀ {q}, q ≠ a → q ≠ d → s'.dentries.get q = s.dentries.get q
  index : ∀ q, s'.vol.indexOf q = s.vol.indexOf q

/-- The entries of a directory for itself and for its parent can go. -/
theorem Tidy.shed (hs : s.Tidy) (hd : s.dentries.get d = some D) (ha : a ∈ D.children)
    (hA : s.dentries.get a = some A) (hname : A.name = dot ∨ A.name = dotdot) :
    ∃ s', s.destroyDentry a = .ok (0, s') ∧ Sheds s s' d a D := by
  obtain ⟨hroot, A', hA', hpar⟩ := hs.links.down hd ha
  rw [hA] at hA'
  cases hA'
  obtain ⟨w, n, m, i, P, hu, hrun⟩ := hs.toCoherent.destroyDentry hA hroot
  have hP := hu.parent
  rw [hpar, hd] at hP
  cases hP
  have hnot := dot_not_plain hname
  -- it has not been loaded
  have hnil : A.children = [] := by
    refine hs.links.unloaded hA (Bool.eq_false_iff.mpr fun hl => ?_)
    exact (hs.plain hA hl).elim hroot hnot
  have hne : A.parent ≠ a := Nat.ne_of_lt (hs.links.up hA hroot).1
  refine ⟨_, hrun, hs.unlink hroot hu hnil fun h => absurd h hnot, rfl, ?_, fun hqa hqd => ?_, hu.clears.index⟩
  · rw [← hpar]
    exact detach_parent hu.parent hne
  · exact detach_ne hqa (by rw [hpar]; exact hqd)

theorem Coherent.child_lt (hc : s.Coherent) (hd : s.dentries.get d = some D) (ha : a ∈ D.children) :
    d < a := by
  obtain ⟨hroot, A, hA, hpar⟩ := hc.links.down hd ha
  rw [← hpar]
  exact (hc.links.up hA hroot).1

/-- A dentry that was loaded and has no children left is one of an empty directory. -/
theorem Coherent.entries_nil (hc : s.Coherent) (hd : s.dentries.get d = some D) (hl : D.loaded = true)
    (hn : s.vol.indexOf D.inode = some n) (hnil : D.children = []) : s.vol.entries n = [] := by
  have hperm := hc.loaded hd hl hn
  rw [hnil] at hperm
  exact hperm.symm.eq_nil

/-- **An empty directory is removed**: its two entries, its own entry, and then the inode. -/
theorem Tidy.removeDirectory (hs : s.Tidy) (hd : s.dentries.get d = some D) (hl : D.loaded = true)
    (hroot : d ≠ s.root) (hplain : signs.Plain D.name) (htwo : D.nentries = 2)
    (hdots : s.onlyDots D.children = true) {s₃ : Fs} (hrun : s.removeDentryAndChildren d = .ok s₃)
    (hdes : s₃.destroyInode D.inode = .ok s') : s'.Tidy := by
  have hname : ∀ c ∈ D.children, ∃ C, s.dentries.get c = some C ∧ (C.name = dot ∨ C.name = dotdot) := by
    intro c hc
    obtain ⟨n, hn⟩ := hs.object hd
    obtain ⟨C, m, hC, _, hentry⟩ := hs.child hd hl hn hc
    have hlen := (entries_name hentry).2.1
    have hone := List.all_eq_true.mp hdots c hc
    rw [hC, Option.any_some, Bool.or_eq_true, sameName_iff (by decide) hlen,
      sameName_iff (by decide) hlen] at hone
    exact ⟨C, hC, hone.imp Eq.symm Eq.symm⟩
  obtain ⟨a, b, hch⟩ := List.length_eq_two.mp ((hs.links.count hd).symm.trans htwo)
  have hnodup := hs.links.nodup hd
  rw [hch] at hname hnodup
  obtain ⟨A, hA, hnameA⟩ := hname a (by simp)
  obtain ⟨B, hB, hnameB⟩ := hname b (by simp)
  have hba : b ≠ a := fun h => by simp [h] at hnodup
  have hbd : b ≠ d := (Nat.ne_of_lt (hs.child_lt hd (by rw [hch]; simp))).symm
  -- first the two entries in it
  obtain ⟨s₁, hrun₁, h₁⟩ := hs.shed hd (by rw [hch]; simp) hA hnameA
  have herase : D.children.erase a = [b] := by
    rw [hch]
    exact List.erase_cons_head ..
  obtain ⟨s₂, hrun₂, h₂⟩ := h₁.tidy.shed h₁.parent (a := b) (by rw [herase]; simp)
    ((h₁.others hba hbd).trans hB) hnameB
  have hD₂ := h₂.parent
  simp only [herase, List.erase_cons_head] at hD₂
  -- then its own
  have hroot₂ : d ≠ s₂.root := by
    rw [h₂.root, h₁.root]
    exact hroot
  obtain ⟨w, k, n, i, P, hu, hrun₃⟩ := h₂.tidy.toCoherent.destroyDentry hD₂ hroot₂
  have hnil := h₂.tidy.entries_nil hD₂ hl hu.index rfl
  have hs₃ := h₂.tidy.unlink hroot₂ hu rfl fun _ => hnil
  have hrun' : s.removeDentryAndChildren d = .ok ⟨w, detach s₂.dentries d D.parent, s₂.root⟩ := by
    unfold removeDentryAndChildren
    rw [hd]
    simp only [hch, unlinkAll, hrun₁, hrun₂, hrun₃, bind, Except.bind]
  rw [hrun'] at hrun
  cases hrun
  -- nothing names the inode now
  have h1 : n ≠ 1 := by
    rintro rfl
    obtain ⟨R, hR, _⟩ := h₂.tidy.links.top
    exact hroot₂ (h₂.tidy.unique hD₂ hR (.inr hplain) (.inl rfl) hu.index (h₂.tidy.root hR))
  have hn : w.indexOf D.inode = some n := (hu.clears.index _).trans hu.index
  have hnil' : w.entries n = [] := by
    by_cases hkn : n = k
    · -- it would have an entry for itself
      subst hkn
      have hperm := hu.clears.entries (h₂.tidy.ready.allocated hu.dir) hu.isDir
      rw [hnil] at hperm
      exact absurd hperm.symm.eq_nil (by simp)
    · exact (hu.clears.entries_of_ne hkn (h₂.tidy.ready.allocated hu.index)).trans hnil
  obtain ⟨u, hu', hok⟩ := bind_eq_ok hdes
  cases hok
  exact hs₃.revolume (hs₃.toCoherent.destroy hn (hs₃.ready.destroy hn hu') h1
    (hu.unnamed h₂.tidy.toCoherent hplain hnil h1) hnil')

/-- **`fs_rmdir` keeps the cache tidy.** -/
theorem RmdirEnds.tidy {r : Int} (h : RmdirEnds s path r s') (hs : s.Tidy) (hp : PlainPath path)
    (hne : pathNames path ≠ []) : s'.Tidy := by
  cases h with
  | tooLong => exact hs
  | missing hf => exact hf.tried.tidy hs hp
  | refused hf => exact hf.tried.tidy hs hp
  | @removed s₁ s₂ s₃ d n D hf hD hl hn hdir htwo hdots hrun hdes =>
    obtain ⟨E, hE, _, hlast⟩ := hf.found rfl
    rw [hD] at hE
    cases hE
    obtain ⟨hroot, hmem⟩ := hlast.resolve_left fun h => hne h.1
    obtain ⟨habs, _⟩ := (hf.leads n).mp ⟨d, D, rfl, hD, hn⟩
    exact (hf.tried.tidy hs hp).removeDirectory hD hl hroot (hp habs _ hmem) htwo hdots hrun hdes

end Rmdir

end Fs

end Cyanurus
