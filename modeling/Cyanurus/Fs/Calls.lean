import Cyanurus.Fs.Coherent

/-!
# What the calls of the file system can do

`fs_create`, `fs_mkdir` and `fs_unlink` on a volume with a coherent cache. For each call there is
one theorem with all the ways it can go, as steps on the volume and on the cache: the lookups, an
inode that is made or destroyed, records that are appended or cleared. The path is any string; `.`
and `..` are names like others here.
-/

namespace Cyanurus

namespace Fs

variable {s s' : Fs} {d n m p : Nat} {D : Dentry} {path name : CString}

/-! ## Looking up a path -/

/-- No name of the path is `.` or `..`. A path that does not start at the root is not looked at. -/
def PlainPath (path : CString) : Prop := Absolute path → ∀ x ∈ pathNames path, signs.Plain x

theorem PlainPath.dirname (h : PlainPath path) : PlainPath (dirname path) := fun habs x hx =>
  let ⟨habs', hx'⟩ := mem_dirname habs hx
  h habs' x hx'

/-- What `dentry_lookup` comes to. -/
structure Found (s s' : Fs) (path : CString) (r : Option Nat) : Prop where
  coherent : s'.Coherent
  ext : s.Extends s'
  /-- The dentry is one of the inode that the names lead to. -/
  leads : ∀ m, (∃ e E, r = some e ∧ s'.dentries.get e = some E ∧ s'.vol.indexOf E.inode = some m)
    ↔ Absolute path ∧ path.length < pathMax ∧ s.vol.tree.Leads 1 (pathNames path) m
  found : ∀ {e}, r = some e → ∃ E, s'.dentries.get e = some E ∧ E.loaded = true
    ∧ (pathNames path = [] ∧ e = s'.root ∨ e ≠ s'.root ∧ E.name ∈ pathNames path)
  walks : ∀ {e}, r = some e → s'.Walks s'.root (pathNames path) e
  plain : s.LoadedPlain → PlainPath path → s'.LoadedPlain

theorem Coherent.root_plain (hc : s.Coherent) : s.PlainAt s.root :=
  let ⟨R, hR, _⟩ := hc.links.top
  ⟨R, hR, .inl rfl⟩

/-- **`dentry_lookup` finds what the path leads to on disk.** -/
theorem dentryLookup_found (hc : s.Coherent) (path : CString) :
    ∃ r s', s.dentryLookup path = .ok (r, s') ∧ Found s s' path r := by
  have hnone : ¬ (Absolute path ∧ path.length < pathMax) → Found s s path none := fun h =>
    ⟨hc, .refl s, fun m => ⟨fun ⟨_, _, he, _⟩ => absurd he (by simp), fun hm => absurd ⟨hm.1, hm.2.1⟩ h⟩,
      fun he => absurd he (by simp), fun he => absurd he (by simp), fun hs _ => hs⟩
  unfold dentryLookup
  by_cases hlen : path.length < pathMax
  · rw [if_neg (Nat.not_le.mpr hlen)]
    cases path with
    | nil => exact ⟨none, s, rfl, hnone fun h => absurd h.1 (by decide)⟩
    | cons c rest =>
      by_cases hslash : c = slash
      · obtain ⟨R, hR, _⟩ := hc.links.top
        obtain ⟨r, s', hrun, hl⟩ := lookupLoop_looked (splitSlash rest) hc hR (hc.root hR)
        have habs : Absolute (c :: rest) := congrArg some hslash
        have hnames : pathNames (c :: rest) = nonempty (splitSlash rest) := by
          unfold pathNames
          rw [splitSlash, if_pos hslash]
          rfl
        refine ⟨r, s', (if_pos hslash).trans hrun, hl.coherent, hl.ext, fun m => ?_, fun {e} he => ?_,
          fun he => ?_, ?_⟩
        · rw [hl.leads m, hnames]
          exact ⟨fun h => ⟨habs, hlen, h⟩, fun h => h.2.2⟩
        · obtain ⟨E, hE, hload, hlast⟩ := hl.found he
          rw [hnames]
          exact ⟨E, hE, hload, hlast.imp_left fun h => ⟨h.1, by rw [h.2, hl.ext.root]⟩⟩
        · rw [hnames, hl.ext.root]
          exact hl.walks he
        · exact fun hs hx => hl.plain hs hc.root_plain (hnames ▸ hx habs)
      · refine ⟨none, s, if_neg hslash, hnone fun h => hslash ?_⟩
        exact Option.some.inj h.1
  · rw [if_pos (Nat.not_lt.mp hlen)]
    exact ⟨none, s, rfl, hnone fun h => hlen h.2⟩

theorem dentryLookup_ok {r : Option Nat} (hc : s.Coherent) (h : s.dentryLookup path = .ok (r, s')) :
    Found s s' path r := by
  obtain ⟨r₁, s₁, hrun, hf⟩ := dentryLookup_found hc path
  cases h.symm.trans hrun
  exact hf

/-- Lookups along the path. -/
structure Tried (s s' : Fs) (path : CString) : Prop where
  coherent : s'.Coherent
  ext : s.Extends s'
  plain : s.LoadedPlain → PlainPath path → s'.LoadedPlain

theorem Found.tried {r : Option Nat} (h : Found s s' path r) : Tried s s' path :=
  ⟨h.coherent, h.ext, h.plain⟩

/-- A path that is not there, in a directory that is: `d` is the dentry of the directory `n`. -/
structure Spot (s s' : Fs) (path : CString) (d n : Nat) (D : Dentry) : Prop extends Tried s s' path where
  get : s'.dentries.get d = some D
  loaded : D.loaded = true
  index : s'.vol.indexOf D.inode = some n
  abs : Absolute path
  names : pathNames path = pathNames (dirname path) ++ [basename path]
  leads : s.vol.tree.Leads 1 (pathNames (dirname path)) n
  only : ∀ {k}, s.vol.tree.Leads 1 (pathNames (dirname path)) k → k = n
  free : ∀ m, (m, basename path) ∉ s.vol.entries n
  walks : s'.Walks s'.root (pathNames (dirname path)) d

/-- **The two lookups of `fs_create` and `fs_mkdir`.** -/
theorem spot {s₁ s₂ : Fs} {r : Option Nat} (hc : s.Coherent) (hlen : path.length < pathMax)
    (h₁ : s.dentryLookup path = .ok (none, s₁)) (h₂ : s₁.dentryLookup (dirname path) = .ok (r, s₂)) :
    Tried s s₂ path ∧ ∀ {d}, r = some d → ∃ n D, Spot s s₂ path d n D := by
  have hf := dentryLookup_ok hc h₁
  have hf' := dentryLookup_ok hf.coherent h₂
  have htried : Tried s s₂ path := ⟨hf'.coherent, hf.ext.trans hf'.ext, fun hs hx =>
    hf'.plain (hf.plain hs hx) hx.dirname⟩
  refine ⟨htried, fun {d} hd => ?_⟩
  obtain ⟨D, hD, hl, _⟩ := hf'.found hd
  obtain ⟨n, hn⟩ := hf'.coherent.object hD
  obtain ⟨habs', hlen', hleads⟩ := (hf'.leads n).mp ⟨d, D, hd, hD, hn⟩
  rw [hf.ext.tree] at hleads
  have honly : ∀ {k}, s.vol.tree.Leads 1 (pathNames (dirname path)) k → k = n := fun {k} hk => by
    obtain ⟨e, E, he, hE, hke⟩ := (hf'.leads k).mpr ⟨habs', hlen', by rw [hf.ext.tree]; exact hk⟩
    cases hd.symm.trans he
    cases hD.symm.trans hE
    exact Option.some.inj (hke.symm.trans hn)
  have hnil : path ≠ [] := by
    rintro rfl
    cases habs'
  have habs := (absolute_dirname hnil).mp habs'
  have hnot : ∀ m, ¬ s.vol.tree.Leads 1 (pathNames path) m := fun m hm => by
    obtain ⟨e, E, he, _⟩ := (hf.leads m).mpr ⟨habs, hlen, hm⟩
    cases he
  have hne : pathNames path ≠ [] := fun h => hnot 1 (by rw [h]; rfl)
  have hnames := pathNames_dirname habs hne
  refine ⟨n, D, htried, hD, hl, hn, habs, hnames, hleads, honly, fun m hm => hnot m ?_, hf'.walks hd⟩
  rw [hnames]
  exact hleads.append ⟨m, hm, rfl⟩

end Fs

/-! ## Making an inode -/

variable {p m mode n : Nat} {v w : Volume}

theorem Volume.Creates.sameFile (h : v.Creates w p m mode)
    (hn : Allocated v.sb v.disk n) : v.SameFile w n :=
  h.others.sameFile (fun heq => h.fresh (heq ▸ hn)) hn

theorem Volume.Creates.has {x : Nat × List Nat} (h : v.Creates w p m mode) (hn : Allocated v.sb v.disk n)
    (hx : IsSlot x.1 x.2) : w.has n x = v.has n x := by
  have hne : n ≠ m := fun heq => h.fresh (heq ▸ hn)
  unfold Volume.has hasZone
  rw [h.others.read hne hn, (h.others.blocks hne hn).slot hx]

/-- The new inode has taken the first of the free zones. -/
theorem Volume.Creates.grows (h : v.Creates w p m mode) (hn : Allocated v.sb v.disk n)
    (hg : v.Grows n (freeZones v.sb v.disk).tail) : w.Grows n (freeZones w.sb w.disk) := by
  have hsize : w.sizeOf n = v.sizeOf n := (h.sameFile hn).size
  obtain ⟨z, hz⟩ := h.took
  obtain ⟨hsmall, hclean⟩ := hg
  rw [hz, List.tail_cons] at hclean
  constructor <;> rw [hsize]
  · exact hsmall
  · exact hclean.congr (fun x hx => h.has hn (writeSlots_isSlot _ _ x hx)) h.free

/-- A new inode takes none of the zones that other inodes need. -/
theorem Volume.Creates.recordZones (h : v.Creates w p m mode) (hn : Allocated v.sb v.disk n)
    (hsmall : v.sizeOf n + direntSize < maxSize) : w.recordZones n = v.recordZones n := by
  unfold Volume.recordZones
  rw [show w.sizeOf n = v.sizeOf n from (h.sameFile hn).size]
  refine missing_congr fun s hs => ?_
  obtain ⟨b, hb, hsb⟩ := mem_fileSlots.mp hs
  have hmax : maxSize + blockSize = maxOffset := rfl
  exact h.has hn (spine_isSlot (Nat.lt_of_le_of_lt hb (block_lt (by omega))) s hsb)

/-- The mode `fs_create` or `fs_mkdir` gives to an inode. -/
theorem mode_lt (mode : Nat) {kind : Nat} (hk : kind < 2 ^ 16) : mode &&& 0o777 ||| kind < 2 ^ 16 :=
  Nat.or_lt_two_pow (Nat.lt_of_le_of_lt Nat.and_le_right (by decide)) hk

theorem isDir_mode (mode kind : Nat) : isDir (mode &&& 0o777 ||| kind) = isDir kind := by
  unfold isDir
  rw [Nat.and_or_distrib_right, Nat.and_assoc]
  simp

namespace Fs

variable {s s' : Fs} {d n m p : Nat} {D : Dentry} {path name : CString} {st : Store Dentry} {r : Int}

/-- The directory that the last name of the path goes to can take another record. The first free zone
goes to the new inode. -/
def Takes (s : Fs) (path : CString) : Prop := ∀ {n}, s.vol.tree.Leads 1 (pathNames (dirname path)) n →
  s.vol.isDirectory n = true ∧ s.vol.Grows n (freeZones s.vol.sb s.vol.disk).tail

theorem Tried.refl (hc : s.Coherent) : Tried s s path := ⟨hc, .refl s, fun hs _ => hs⟩

/-- A call that makes nothing: only lookups have been made, or the new inode was taken back. -/
inductive Failed (s : Fs) (path : CString) : Fs → Prop
  | tried {s₂ : Fs} (ht : Tried s s₂ path) : Failed s path s₂
  /-- No inode, or no zone, is left. -/
  | full {s₂ : Fs} {w : Volume} {mode : Nat} (ht : Tried s s₂ path)
      (hw : inodeCreate s₂.vol mode = (none, w)) : Failed s path { s₂ with vol := w }
  /-- The name is too long, and the inode is destroyed again. -/
  | undone {s₂ : Fs} {w u : Volume} {m p mode : Nat} (ht : Tried s s₂ path)
      (hw : inodeCreate s₂.vol mode = (some p, w)) (hcr : s₂.vol.Creates w p m mode)
      (hu : inodeDestroy w p = .ok u) : Failed s path { s₂ with vol := u }

/-- All the ways `fs_create` can go. -/
inductive CreateEnds (s : Fs) (path : CString) (flags mode : Nat) : Int → Fs → Prop
  | failed {s₂ : Fs} {r : Int} (hr : r < 0) (hf : Failed s path s₂) : CreateEnds s path flags mode r s₂
  | there {s₁ : Fs} {e : Nat} (hf : Found s s₁ path (some e)) :
      CreateEnds s path flags mode (if flags &&& oExcl != 0 then eexist else 0) s₁
  /-- The inode is linked. -/
  | linked {s₂ : Fs} {w u : Volume} {d n m p : Nat} {D : Dentry} (hsp : Spot s s₂ path d n D)
      (hlen : (basename path).length < nameMax)
      (hcr : s₂.vol.Creates w p m (mode &&& 0o777 ||| sIfreg)) (ha : w.Adds u n m (basename path)) :
      CreateEnds s path flags mode 0
        ⟨u, attach s₂.dentries d ⟨basename path, false, 0, p, d, []⟩, s₂.root⟩

section Ends

variable {s₂ : Fs} {w : Volume} {mode : Nat}

theorem Spot.allocated (hsp : Spot s s₂ path d n D) : Allocated s₂.vol.sb s₂.vol.disk n :=
  hsp.coherent.ready.allocated hsp.index

theorem Spot.takes (hsp : Spot s s₂ path d n D) (ht : s.Takes path) :
    s₂.vol.isDirectory n = true ∧ s₂.vol.Grows n (freeZones s₂.vol.sb s₂.vol.disk).tail := by
  have hsame := sameFile_of_disk hsp.ext.sb hsp.ext.disk n
  obtain ⟨hdir, hsmall, hclean⟩ := ht hsp.leads
  have hsize : s₂.vol.sizeOf n = s.vol.sizeOf n := hsame.size
  refine ⟨hsame.isDirectory.trans hdir, by rw [hsize]; exact hsmall, ?_⟩
  unfold Volume.has at *
  rwa [hsize, hsp.ext.sb, hsp.ext.disk]

/-- After `inode_create` the name is still free. -/
theorem Spot.created (hsp : Spot s s₂ path d n D) (hcr : s₂.vol.Creates w p m mode) :
    Coherent { s₂ with vol := w } ∧ w.indexOf D.inode = some n
      ∧ ((basename path).length ≤ nameMax →
          Fs.findChild { s₂ with vol := w } d (basename path) = none) := by
  have hc := hsp.coherent.create hcr
  have hn : w.indexOf D.inode = some n :=
    (hcr.index (hsp.coherent.inode_ne hcr.old hsp.get)).trans hsp.index
  refine ⟨hc, hn, fun hlen => ?_⟩
  rcases hc.findChild hsp.get hsp.loaded hn hlen with ⟨_, _, k, _, _, _, _, _, hmem⟩ | ⟨hnone, _⟩
  · refine absurd ?_ (hsp.free k)
    have hent : w.entries n = s.vol.entries n := (hcr.entries hsp.allocated).trans (hsp.ext.entries n)
    rw [← hent]
    exact hmem
  · exact hnone

/-- A name of 60 bytes does not end in the record. -/
theorem createDentry_fault (hd : s.dentries.get d = some D) (hl : D.loaded = true)
    (hlen : name.length = nameMax) (hno : s.findChild d name = none) :
    s.createDentry d name p = .error .fault := by
  have hne : d ≠ s.dentries.next := Nat.ne_of_lt (Store.lt_next hd)
  have hC : ((s.dentries.alloc ⟨name.take nameMax, false, 0, p, d, []⟩).modify d fun D =>
      { D with children := s.dentries.next :: D.children }).get s.dentries.next
      = some ⟨name.take nameMax, false, 0, p, d, []⟩ :=
    (Store.modify_ne hne.symm).trans Store.alloc_self
  have hwrite : Fs.writeChild { s with
      dentries := (s.dentries.alloc ⟨name.take nameMax, false, 0, p, d, []⟩).modify d fun D =>
        { D with children := s.dentries.next :: D.children } } s.dentries.next = .error .fault := by
    unfold writeChild
    simp only [hC]
    split
    · rw [if_pos (by rw [List.length_take]; omega)]
    · rfl
  unfold createDentry
  rw [if_neg (by omega), readChildren_loaded hd hl]
  simp only [bind, Except.bind, hno, allocDentry, update, Option.getD_some]
  rw [if_neg (by simp), hwrite]

/-- The link that `fs_create` and `fs_mkdir` make, if the call returns. -/
theorem Spot.link {y : Int × Fs} (hsp : Spot s s₂ path d n D) (h0 : 0 ∉ path) (ht : s.Takes path)
    (hcr : s₂.vol.Creates w p m mode)
    (h : Fs.createDentry { s₂ with vol := w } d (basename path) p = .ok y) :
    y = (-1, { s₂ with vol := w })
    ∨ (basename path).length < nameMax ∧ ∃ u, w.Adds u n m (basename path)
      ∧ y = (0, ⟨u, attach s₂.dentries d ⟨basename path, false, 0, p, d, []⟩, s₂.root⟩) := by
  obtain ⟨hc, hn, hno⟩ := hsp.created hcr
  rcases Nat.lt_trichotomy nameMax (basename path).length with hlen | hlen | hlen
  · unfold createDentry at h
    rw [if_pos hlen] at h
    exact .inl (Except.ok.inj h).symm
  · cases h.symm.trans (createDentry_fault hsp.get hsp.loaded hlen.symm (hno (Nat.le_of_eq hlen.symm)))
  · obtain ⟨hdir, hg⟩ := hsp.takes ht
    have hbase : 0 ∉ basename path := fun h => h0 ((mem_pathNames (by
      rw [hsp.names]
      exact List.mem_append_right _ (List.mem_singleton_self _))).2.2 0 h)
    obtain ⟨u, hrun, ha⟩ := createDentry_adds hc.ready hsp.get hsp.loaded hn
      (((hcr.sameFile hsp.allocated).isDirectory).trans hdir) hcr.new (hcr.grows hsp.allocated hg) hlen hbase
      (hno (Nat.le_of_lt hlen))
    exact .inr ⟨hlen, u, ha, Except.ok.inj (h.symm.trans hrun)⟩

/-- **What `fs_create` can do.** -/
theorem create_ends (hc : s.Coherent) (h0 : 0 ∉ path) (ht : s.Takes path)
    (h : s.create path flags mode = .ok (r, s')) : CreateEnds s path flags mode r s' := by
  unfold create at h
  split at h
  · cases h
    exact .failed (by decide) (.tried (.refl hc))
  rename_i hlen
  obtain ⟨⟨r₁, s₁⟩, hrun₁, h⟩ := bind_eq_ok h
  cases r₁ with
  | some e =>
    cases h
    exact .there (dentryLookup_ok hc hrun₁)
  | none =>
    obtain ⟨⟨r₂, s₂⟩, hrun₂, h⟩ := bind_eq_ok h
    obtain ⟨htried, hsp⟩ := spot hc (Nat.not_le.mp hlen) hrun₁ hrun₂
    cases r₂ with
    | none =>
      cases h
      exact .failed (by decide) (.tried htried)
    | some d =>
      obtain ⟨n, D, hsp⟩ := hsp rfl
      rcases hcr : inodeCreate s₂.vol (mode &&& 0o777 ||| sIfreg) with ⟨_ | p, w⟩
      · simp only [hcr] at h
        cases h
        exact .failed (by decide) (.full htried hcr)
      · simp only [hcr] at h
        obtain ⟨m, hmade⟩ := htried.coherent.ready.create (mode_lt mode (by decide)) hcr
        obtain ⟨y, hrun, h⟩ := bind_eq_ok h
        rcases hsp.link h0 ht hmade hrun with rfl | ⟨hlen', u, ha, rfl⟩
        · obtain ⟨_, hdes, h⟩ := bind_eq_ok h
          obtain ⟨u, hd, hu⟩ := bind_eq_ok hdes
          cases hu
          cases h
          exact .failed (Int.negSucc_lt_zero 0) (.undone htried hcr hmade hd : Failed s path { s₂ with vol := u })
        · cases h
          exact .linked hsp hlen' hmade ha

end Ends

/-! ## Looking up what was just linked -/

section Again

variable {names xs rest : List CString} {c e q : Nat}

theorem lookupLoop_skip (h : s.IsLoaded d) :
    lookupLoop ([] :: names) s d = lookupLoop names s d := by
  obtain ⟨D, hD, hl⟩ := h
  rw [lookupLoop, readChildren_loaded hD hl]
  rfl

theorem lookupLoop_next (h : s.IsLoaded d) (hne : name ≠ [])
    (hlen : name.length ≤ nameMax) (hf : s.findChild d name = some c) :
    lookupLoop (name :: names) s d = lookupLoop names s c := by
  obtain ⟨D, hD, hl⟩ := h
  rw [lookupLoop, readChildren_loaded hD hl]
  simp only [bind, Except.bind]
  rw [if_neg hne, if_neg (Nat.not_lt.mpr hlen), hf]

theorem Walks.isLoaded (h : s.Walks d xs e) : s.IsLoaded d := by
  cases xs with
  | nil => exact h.2
  | cons x xs => exact h.1

/-- A lookup goes along a way that has been loaded. -/
theorem lookupLoop_along {ys : List CString} (hw : s.Walks d xs e)
    (hn : nonempty names = xs ++ ys) :
    ∃ rest, nonempty rest = ys ∧ lookupLoop names s d = lookupLoop rest s e := by
  induction names generalizing d xs with
  | nil =>
    obtain ⟨rfl, rfl⟩ := List.append_eq_nil_iff.mp hn.symm
    exact ⟨[], rfl, by rw [hw.1]⟩
  | cons name names ih =>
    cases xs with
    | nil => exact ⟨name :: names, hn, by rw [hw.1]⟩
    | cons x xs =>
      by_cases hempty : name = []
      · subst hempty
        rw [lookupLoop_skip hw.isLoaded]
        exact ih hw hn
      · rw [nonempty_cons hempty] at hn
        obtain ⟨hx, htail⟩ := List.cons.inj hn
        subst hx
        obtain ⟨hl, hlen, c, hf, hw⟩ := hw
        rw [lookupLoop_next hl hempty hlen hf]
        exact ih hw htail

theorem of_nonempty_nil {x : CString} (h : nonempty (x :: rest) = []) :
    x = [] ∧ nonempty rest = [] := by
  by_cases hx : x = []
  · subst hx
    exact ⟨rfl, h⟩
  · rw [nonempty_cons hx] at h
    cases h

/-- Only slashes are left. -/
theorem lookupLoop_blank (hrest : nonempty rest = [])
    (hread : s.readChildren d = .ok s') (hl : s'.IsLoaded d) :
    lookupLoop rest s d = .ok (some d, s') := by
  induction rest generalizing s with
  | nil =>
    rw [lookupLoop, hread]
    rfl
  | cons x rest ih =>
    obtain ⟨rfl, hrest⟩ := of_nonempty_nil hrest
    obtain ⟨D, hD, hload⟩ := hl
    rw [lookupLoop, hread]
    exact ih hrest (readChildren_loaded hD hload)

/-- One name is left. -/
theorem lookupLoop_last (hrest : nonempty rest = [name])
    (hd : s.IsLoaded d) (hlen : name.length ≤ nameMax) (hf : s.findChild d name = some c)
    (hread : s.readChildren c = .ok s') (hl : s'.IsLoaded c) :
    lookupLoop rest s d = .ok (some c, s') := by
  induction rest with
  | nil => cases hrest
  | cons x rest ih =>
    by_cases hx : x = []
    · subst hx
      rw [lookupLoop_skip hd]
      exact ih hrest
    · rw [nonempty_cons hx] at hrest
      obtain ⟨hname, hnil⟩ := List.cons.inj hrest
      subst hname
      rw [lookupLoop_next hd hx hlen hf]
      exact lookupLoop_blank hnil hread hl

theorem mem_of_findChild (hd : s.dentries.get d = some D) (h : s.findChild d name = some c) :
    c ∈ D.children := by
  unfold Fs.findChild at h
  rw [hd] at h
  exact List.mem_of_find?_eq_some h

/-- A way goes to later and later dentries. -/
theorem Coherent.walks_le (hc : s.Coherent) (h : s.Walks q xs d) : q ≤ d := by
  induction xs generalizing q with
  | nil => exact Nat.le_of_eq h.1
  | cons x xs ih =>
    obtain ⟨⟨Q, hQ, _⟩, _, c, hf, hw⟩ := h
    obtain ⟨hroot, C, hC, hpar⟩ := hc.links.down hQ (mem_of_findChild hQ hf)
    have hlt := (hc.links.up hC hroot).1
    rw [hpar] at hlt
    exact Nat.le_trans (Nat.le_of_lt hlt) (ih hw)

/-- The way to a dentry is not changed by a new child of it. -/
theorem Coherent.walks_attach (hc : s.Coherent) {w : Volume} {C : Dentry}
    (hd : s.dentries.get d = some D) (h : s.Walks q xs d) :
    Fs.Walks ⟨w, attach s.dentries d C, s.root⟩ q xs d := by
  have hname : ∀ {e E}, s.dentries.get e = some E →
      ((attach s.dentries d C).get e).map Dentry.name = (s.dentries.get e).map Dentry.name := by
    intro e E he
    by_cases hed : e = d
    · subst hed
      rw [attach_self hd, hd]
      rfl
    · rw [attach_old hed he, he]
  induction xs generalizing q with
  | nil =>
    obtain ⟨rfl, Q, hQ, hl⟩ := h
    rw [hd] at hQ
    cases hQ
    exact ⟨rfl, _, attach_self hd, hl⟩
  | cons x xs ih =>
    obtain ⟨⟨Q, hQ, hl⟩, hlen, c, hf, hw⟩ := h
    obtain ⟨hroot, E, hE, hpar⟩ := hc.links.down hQ (mem_of_findChild hQ hf)
    have hlt := (hc.links.up hE hroot).1
    have hle := hc.walks_le hw
    have hQ' : (attach s.dentries d C).get q = some Q := attach_old (by omega) hQ
    refine ⟨⟨Q, hQ', hl⟩, hlen, c, ?_, ih hw⟩
    rw [← hf]
    refine findChild_congr hQ hQ' rfl (fun e he => ?_) x
    obtain ⟨E, hE⟩ := hc.child_alive hQ he
    exact hname hE

/-- A directory without records gets no children. -/
theorem readChildren_empty (hv : s.vol.Ready) (hd : s.dentries.get d = some D) (hl : D.loaded = false)
    (hn : s.vol.indexOf D.inode = some n) (hdir : s.vol.isDirectory n = true) (hsize : s.vol.sizeOf n = 0) :
    s.readChildren d = .ok (s.update d fun D =>
      { D with
        nentries := (D.nentries + 0) % 2 ^ 32
        children := [] ++ D.children
        loaded := true }) := by
  obtain ⟨inode, hget, rfl⟩ := indexOf_eq_some.mp hn
  have hmode : isDir inode.mode = true := by
    rw [hv.modes hget]
    exact hdir
  have hzero : inode.size ≤ 0 := Nat.le_of_eq ((hv.inv.live hget).2.trans hsize)
  have hread : inodeRead s.vol D.inode blockSize 0 (fun _ => 0) = .ok (0, fun _ => 0) := by
    unfold inodeRead
    rw [hget]
    simp only []
    rw [if_pos hzero]
  have hblocks : readBlocks d D.inode fileRounds s 0 [] = .ok (true, [], s) := by
    rw [show fileRounds = 2097151 + 1 from rfl, readBlocks, hread]
    rfl
  unfold readChildren
  rw [hd]
  simp only [hl, hget, hmode]
  rw [hblocks]
  rfl

end Again

/-- The dentry of the new directory after it was looked up. -/
def loadEmpty (st : Store Dentry) (c : Nat) : Store Dentry :=
  st.modify c fun D =>
    { D with
      nentries := (D.nentries + 0) % 2 ^ 32
      children := [] ++ D.children
      loaded := true }

theorem loadEmpty_self (h : st.get d = some D) : (loadEmpty st d).get d = some
    { D with nentries := (D.nentries + 0) % 2 ^ 32, children := [] ++ D.children, loaded := true } :=
  Store.modify_self_of h rfl

theorem loadEmpty_ne {q : Nat} (h : q ≠ d) : (loadEmpty st d).get q = st.get q :=
  Store.modify_ne h

/-- The dentries after `fs_mkdir` in the directory `d`, whose inode is `q`. -/
def mkdirDentries (st : Store Dentry) (d p q : Nat) (name : CString) : Store Dentry :=
  attach (attach (loadEmpty (attach st d ⟨name, false, 0, p, d, []⟩) st.next) st.next
    ⟨dot, false, 0, p, st.next, []⟩) st.next ⟨dotdot, false, 0, q, st.next, []⟩

/-- All the ways `fs_mkdir` can go. -/
inductive MkdirEnds (s : Fs) (path : CString) (mode : Nat) : Int → Fs → Prop
  | failed {s₂ : Fs} {r : Int} (hr : r < 0) (hf : Failed s path s₂) : MkdirEnds s path mode r s₂
  /-- The inode is linked, and then itself and its parent in it. -/
  | linked {s₂ : Fs} {w u u₁ u₂ : Volume} {d n m p : Nat} {D : Dentry} (hsp : Spot s s₂ path d n D)
      (hlen : (basename path).length < nameMax)
      (hcr : s₂.vol.Creates w p m (mode &&& 0o777 ||| sIfdir)) (ha : w.Adds u n m (basename path))
      (hself : u.Adds u₁ m m dot) (hparent : u₁.Adds u₂ m n dotdot) :
      MkdirEnds s path mode 0 ⟨u₂, mkdirDentries s₂.dentries d p D.inode (basename path), s₂.root⟩

section Mkdir

variable {s₂ : Fs} {w u : Volume} {mode : Nat}

/-- The lookup of the new directory finds it, and loads it. -/
theorem Spot.lookup (hsp : Spot s s₂ path d n D) (hpath : path.length < pathMax)
    (hlen : (basename path).length < nameMax) (hu : u.Ready) (hm : u.indexOf p = some m)
    (hdir : u.isDirectory m = true) (hsize : u.sizeOf m = 0) :
    Fs.dentryLookup ⟨u, attach s₂.dentries d ⟨basename path, false, 0, p, d, []⟩, s₂.root⟩ path
      = .ok (some s₂.dentries.next, ⟨u, loadEmpty (attach s₂.dentries d
          ⟨basename path, false, 0, p, d, []⟩) s₂.dentries.next, s₂.root⟩) := by
  have hnew := attach_new (C := ⟨basename path, false, 0, p, d, []⟩) hsp.get
  have hself := attach_self (C := ⟨basename path, false, 0, p, d, []⟩) hsp.get
  have hwalk := hsp.coherent.walks_attach (w := u) (C := ⟨basename path, false, 0, p, d, []⟩) hsp.get hsp.walks
  have hread := readChildren_empty
    (s := ⟨u, attach s₂.dentries d ⟨basename path, false, 0, p, d, []⟩, s₂.root⟩) hu hnew rfl hm hdir hsize
  have hloaded : Fs.IsLoaded ⟨u, loadEmpty (attach s₂.dentries d
      ⟨basename path, false, 0, p, d, []⟩) s₂.dentries.next, s₂.root⟩ s₂.dentries.next :=
    ⟨_, loadEmpty_self hnew, rfl⟩
  -- the new child is in front
  have hfind : Fs.findChild ⟨u, attach s₂.dentries d ⟨basename path, false, 0, p, d, []⟩, s₂.root⟩ d
      (basename path) = some s₂.dentries.next := by
    unfold Fs.findChild
    simp only [hself, Option.bind_some]
    rw [List.find?_cons_of_pos]
    rw [hnew]
    simp [sameName]
  obtain ⟨rest, habs⟩ : ∃ rest, path = slash :: rest := by
    have habs := hsp.abs
    cases path with
    | nil => cases habs
    | cons c rest => exact ⟨rest, by rw [Option.some.inj habs]⟩
  have hnames : nonempty (splitSlash rest) = pathNames (dirname path) ++ [basename path] := by
    rw [← hsp.names, habs]
    rfl
  have habs : ∀ S : Fs, S.lookupDentry path = lookupLoop (splitSlash rest) S S.root := fun S => by
    rw [habs]
    rfl
  obtain ⟨names, hrest, hrun⟩ := lookupLoop_along hwalk hnames
  unfold dentryLookup
  rw [if_neg (Nat.not_le.mpr hpath), habs, hrun]
  exact lookupLoop_last hrest ⟨_, hself, hsp.loaded⟩ (Nat.le_of_lt hlen) hfind hread hloaded

/-- A directory with nothing in it can take a record, and another one. -/
theorem grows_small {v : Volume} {free : List Nat} (h : v.sizeOf n + direntSize < 7 * blockSize) :
    v.Grows n free := by
  have hmax : 7 * blockSize ≤ maxSize := by decide
  exact ⟨Nat.lt_of_lt_of_le h hmax, clean_of_direct (writeSlots_direct h)⟩

/-- The new directory gets its two entries. -/
theorem Spot.fill (hsp : Spot s s₂ path d n D) (hu : u.Ready) (hm : u.indexOf p = some m)
    (hn : u.indexOf D.inode = some n) (hdir : u.isDirectory m = true) (hsize : u.sizeOf m = 0)
    (hst : st = loadEmpty (attach s₂.dentries d ⟨basename path, false, 0, p, d, []⟩) s₂.dentries.next) :
    ∃ u₁ u₂, u.Adds u₁ m m dot ∧ u₁.Adds u₂ m n dotdot
      ∧ Fs.createDentry ⟨u, st, s₂.root⟩ s₂.dentries.next dot p
        = .ok (0, ⟨u₁, attach st s₂.dentries.next ⟨dot, false, 0, p, s₂.dentries.next, []⟩, s₂.root⟩)
      ∧ Fs.createDentry ⟨u₁, attach st s₂.dentries.next ⟨dot, false, 0, p, s₂.dentries.next, []⟩, s₂.root⟩
          s₂.dentries.next dotdot D.inode
        = .ok (0, ⟨u₂, mkdirDentries s₂.dentries d p D.inode (basename path), s₂.root⟩) := by
  have hma := hu.allocated hm
  have hload : st.get s₂.dentries.next = some ⟨basename path, true, 0, p, d, []⟩ :=
    hst ▸ loadEmpty_self (attach_new hsp.get)
  have hno₁ : Fs.findChild ⟨u, st, s₂.root⟩ s₂.dentries.next dot = none := by
    unfold Fs.findChild
    simp only [hload]
    rfl
  obtain ⟨u₁, hrun₁, ha₁⟩ := createDentry_adds hu hload rfl hm hdir hm
    (grows_small (by rw [hsize]; decide)) (by decide) (by decide) hno₁
  have hself := attach_self (C := ⟨dot, false, 0, p, s₂.dentries.next, []⟩) hload
  have hdot := attach_new (C := ⟨dot, false, 0, p, s₂.dentries.next, []⟩) hload
  have hno₂ : Fs.findChild ⟨u₁, attach st s₂.dentries.next ⟨dot, false, 0, p, s₂.dentries.next, []⟩,
      s₂.root⟩ s₂.dentries.next dotdot = none := by
    unfold Fs.findChild
    simp only [hself, Option.bind_some]
    rw [List.find?_cons_of_neg]
    · rfl
    · rw [hdot]
      show ¬ sameName dot dotdot = true
      decide
  obtain ⟨u₂, hrun₂, ha₂⟩ := createDentry_adds ha₁.ready hself rfl ((ha₁.index p).trans hm)
    ((ha₁.isDirectory hma).trans hdir) ((ha₁.index D.inode).trans hn) (grows_small (by
      rcases ha₁.slots with ⟨h, _⟩ | ⟨h, _⟩ <;> rw [h, hsize] <;> decide)) (by decide) (by decide) hno₂
  refine ⟨u₁, u₂, ha₁, ha₂, hrun₁, ?_⟩
  unfold mkdirDentries
  rw [← hst]
  exact hrun₂

/-- The parent of the new dentry is the one its path goes through. -/
theorem Spot.parent (hsp : Spot s s₂ path d n D) {C : Dentry}
    (hst : st = loadEmpty (attach s₂.dentries d ⟨basename path, false, 0, p, d, []⟩) s₂.dentries.next) :
    ∃ P, (((attach st s₂.dentries.next C).get s₂.dentries.next).bind fun E =>
        (attach st s₂.dentries.next C).get E.parent) = some P ∧ P.inode = D.inode := by
  have hne : d ≠ s₂.dentries.next := Nat.ne_of_lt (Store.lt_next hsp.get)
  have hload : st.get s₂.dentries.next = some ⟨basename path, true, 0, p, d, []⟩ :=
    hst ▸ loadEmpty_self (attach_new hsp.get)
  have hd := (loadEmpty_ne hne).trans (attach_self (C := ⟨basename path, false, 0, p, d, []⟩) hsp.get)
  rw [← hst] at hd
  rw [attach_self hload]
  exact ⟨_, attach_old hne hd, rfl⟩

/-- **What `fs_mkdir` can do.** Once the first link is made, the others do not fail. -/
theorem mkdir_ends {r : Int} (hc : s.Coherent) (h0 : 0 ∉ path) (ht : s.Takes path)
    (h : s.mkdir path mode = .ok (r, s')) : MkdirEnds s path mode r s' := by
  unfold mkdir at h
  split at h
  · cases h
    exact .failed (by decide) (.tried (.refl hc))
  rename_i hlen
  obtain ⟨⟨r₁, s₁⟩, hrun₁, h⟩ := bind_eq_ok h
  cases r₁ with
  | some e =>
    cases h
    exact .failed (by decide) (.tried (dentryLookup_ok hc hrun₁).tried)
  | none =>
    obtain ⟨⟨r₂, s₂⟩, hrun₂, h⟩ := bind_eq_ok h
    obtain ⟨htried, hsp⟩ := spot hc (Nat.not_le.mp hlen) hrun₁ hrun₂
    cases r₂ with
    | none =>
      cases h
      exact .failed (by decide) (.tried htried)
    | some d =>
      obtain ⟨n, D, hsp⟩ := hsp rfl
      rcases hcr : inodeCreate s₂.vol (mode &&& 0o777 ||| sIfdir) with ⟨_ | p, w⟩
      · simp only [hcr] at h
        cases h
        exact .failed (by decide) (.full htried hcr)
      · simp only [hcr] at h
        obtain ⟨m, hmade⟩ := htried.coherent.ready.create (mode_lt mode (by decide)) hcr
        obtain ⟨y, hrun, h⟩ := bind_eq_ok h
        rcases hsp.link h0 ht hmade hrun with rfl | ⟨hlen', u, ha, rfl⟩
        · obtain ⟨_, hs, h⟩ := bind_eq_ok h
          cases hs
          obtain ⟨_, hdes, h⟩ := bind_eq_ok h
          obtain ⟨u, hd, hu⟩ := bind_eq_ok hdes
          cases hu
          cases h
          exact .failed (by decide) (.undone htried hcr hmade hd : Failed s path { s₂ with vol := u })
        · have hma : Allocated w.sb w.disk m := hmade.alloc.mpr (.inr rfl)
          have hne : m ≠ n := fun heq => hmade.fresh (heq ▸ hsp.allocated)
          have hm : u.indexOf p = some m := (ha.index p).trans hmade.new
          have hn : u.indexOf D.inode = some n := (ha.index _).trans (hsp.created hmade).2.1
          have hdir : u.isDirectory m = true := by
            rw [ha.isDirectory hma, hmade.isDirectory_new, isDir_mode]
            decide
          have hsize : u.sizeOf m = 0 := (ha.same hne hma).size.trans hmade.size
          obtain ⟨u₁, u₂, ha₁, ha₂, hrun₁', hrun₂'⟩ := hsp.fill ha.ready hm hn hdir hsize rfl
          obtain ⟨P, hP, hino⟩ := hsp.parent (p := p)
            (C := ⟨dot, false, 0, p, s₂.dentries.next, []⟩) rfl
          obtain ⟨_, hlook, h⟩ := bind_eq_ok h
          cases (hsp.lookup (Nat.not_le.mp hlen) hlen' ha.ready hm hdir hsize).symm.trans hlook
          obtain ⟨_, hself, h⟩ := bind_eq_ok h
          cases hrun₁'.symm.trans hself
          simp only [hP, hino] at h
          obtain ⟨_, hparent, h⟩ := bind_eq_ok h
          cases hrun₂'.symm.trans hparent
          cases h
          exact .linked hsp hlen' hmade ha ha₁ ha₂

end Mkdir

/-! ## Removing a file -/

/-- The entry of `c` in the directory `n` is removed, on disk and in the cache. -/
structure Unlinks (s : Fs) (w : Volume) (c n m i : Nat) (C P : Dentry) : Prop where
  get : s.dentries.get c = some C
  parent : s.dentries.get C.parent = some P
  loaded : P.loaded = true
  dir : s.vol.indexOf P.inode = some n
  isDir : s.vol.isDirectory n = true
  index : s.vol.indexOf C.inode = some m
  clears : s.vol.Clears w n i
  slot : s.vol.slot n i = (m, C.name)

/-- **`destroy_dentry` finds the record of a dentry.** -/
theorem Coherent.destroyDentry (hc : s.Coherent) {c : Nat} {C : Dentry} (hC : s.dentries.get c = some C)
    (hroot : c ≠ s.root) : ∃ w n m i P, Unlinks s w c n m i C P
      ∧ s.destroyDentry c = .ok (0, ⟨w, detach s.dentries c C.parent, s.root⟩) := by
  obtain ⟨P, n, m, hP, hl, hmem, hn, hm, hentry⟩ := hc.entry hC hroot
  have hne : C.parent ≠ c := Nat.ne_of_lt (hc.links.up hC hroot).1
  have hna := hc.ready.allocated hn
  obtain ⟨hdir, h0, j, hj, hslot⟩ := mem_entries.mp hentry
  have hlen := (entries_name hentry).2.1
  rcases destroyDentry_clears hc.ready hC hP hne hn hdir hm with ⟨hno, _⟩ | ⟨i, w, hname, hw, hrun⟩
  · have := hno j hj (by rw [hslot]; exact h0)
    rw [hslot, (sameName_iff hlen hlen).mpr rfl] at this
    cases this
  · refine ⟨w, n, m, i, P, ⟨hC, hP, hl, hn, hdir, hm, hw, ?_⟩, hrun⟩
    have hi : s.vol.slot n i ∈ s.vol.entries n := mem_entries.mpr ⟨hdir, hw.used.2, i, hw.used.1, rfl⟩
    have hsame := (sameName_iff (slot_name s.vol n i).1 hlen).mp hname
    refine Prod.ext (hc.tree.unique hna (x := C.name) ?_ hentry) hsame
    have hpair : s.vol.slot n i = ((s.vol.slot n i).1, C.name) := Prod.ext rfl hsame
    rw [← hpair]
    exact hi

/-- The inode that `fs_unlink` and `fs_rmdir` look at. -/
theorem Found.inode {c : Nat} (hf : Found s s' path (some c)) : ∃ C inode m, s'.dentries.get c = some C
    ∧ C.loaded = true ∧ s'.vol.indexOf C.inode = some m ∧ s'.inodeOf c = some inode
    ∧ isDir inode.mode = s'.vol.isDirectory m := by
  obtain ⟨C, hC, hl, _⟩ := hf.found rfl
  obtain ⟨m, hm⟩ := hf.coherent.object hC
  obtain ⟨inode, hget, rfl⟩ := indexOf_eq_some.mp hm
  refine ⟨C, inode, _, hC, hl, hm, ?_, congrArg isDir (hf.coherent.ready.modes hget)⟩
  unfold inodeOf
  rw [hC]
  exact hget

/-- All the ways `fs_unlink` can go. -/
inductive UnlinkEnds (s : Fs) (path : CString) : Int → Fs → Prop
  | tooLong : UnlinkEnds s path enametoolong s
  | missing {s₁ : Fs} (hf : Found s s₁ path none) : UnlinkEnds s path enoent s₁
  | isDirectory {s₁ : Fs} {e : Nat} (hf : Found s s₁ path (some e)) : UnlinkEnds s path eisdir s₁
  | unlinked {s₁ : Fs} {w : Volume} {c n m i : Nat} {C P : Dentry} (hf : Found s s₁ path (some c))
      (hroot : c ≠ s₁.root) (hfile : s₁.vol.isDirectory m = false) (hu : Unlinks s₁ w c n m i C P) :
      UnlinkEnds s path 0 ⟨w, detach s₁.dentries c C.parent, s₁.root⟩
  /-- It was the last link. -/
  | destroyed {s₁ : Fs} {w u : Volume} {c n m i : Nat} {C P : Dentry} (hf : Found s s₁ path (some c))
      (hroot : c ≠ s₁.root) (hfile : s₁.vol.isDirectory m = false) (hu : Unlinks s₁ w c n m i C P)
      (hd : inodeDestroy w C.inode = .ok u) :
      UnlinkEnds s path 0 ⟨u, detach s₁.dentries c C.parent, s₁.root⟩

/-- **What `fs_unlink` can do.** -/
theorem unlink_ends (hc : s.Coherent) (h : s.unlink path = .ok (r, s')) :
    UnlinkEnds s path r s' := by
  unfold unlink at h
  split at h
  · cases h
    exact .tooLong
  obtain ⟨⟨r₁, s₁⟩, hrun₁, h⟩ := bind_eq_ok h
  have hf := dentryLookup_ok hc hrun₁
  cases r₁ with
  | none =>
    cases h
    exact .missing hf
  | some c =>
    obtain ⟨C, inode, m, hC, _, hm, hof, hmode⟩ := hf.inode
    simp only [hC, hof, hmode] at h
    cases hfile : s₁.vol.isDirectory m with
    | true =>
      rw [hfile] at h
      cases h
      exact .isDirectory hf
    | false =>
      rw [hfile] at h
      have hroot : c ≠ s₁.root := by
        rintro rfl
        rw [hf.coherent.root hC] at hm
        cases hm
        rw [hf.coherent.rootDir] at hfile
        cases hfile
      obtain ⟨w, n, m', i, P, hu, hdes⟩ := hf.coherent.destroyDentry hC hroot
      obtain rfl : m' = m := Option.some.inj (hu.index.symm.trans hm)
      obtain ⟨_, hrun, h⟩ := bind_eq_ok h
      cases hdes.symm.trans hrun
      obtain ⟨inode', hget', _⟩ := indexOf_eq_some.mp ((hu.clears.index C.inode).trans hm)
      rw [if_neg (Int.lt_irrefl 0)] at h
      simp only [hget'] at h
      split at h
      · obtain ⟨_, hdes, h⟩ := bind_eq_ok h
        obtain ⟨u, hd, hs⟩ := bind_eq_ok hdes
        cases hs
        cases h
        exact .destroyed hf hroot hfile hu hd
      · cases h
        exact .unlinked hf hroot hfile hu

/-! ## Removing a directory -/

/-- All the ways `fs_rmdir` can go. -/
inductive RmdirEnds (s : Fs) (path : CString) : Int → Fs → Prop
  | tooLong : RmdirEnds s path enametoolong s
  | missing {s₁ : Fs} (hf : Found s s₁ path none) : RmdirEnds s path enoent s₁
  /-- It is no directory, or not empty. -/
  | refused {s₁ : Fs} {d : Nat} {r : Int} (hf : Found s s₁ path (some d)) : RmdirEnds s path r s₁
  | removed {s₁ s₂ s₃ : Fs} {d n : Nat} {D : Dentry} (hf : Found s s₁ path (some d))
      (hD : s₁.dentries.get d = some D) (hl : D.loaded = true) (hn : s₁.vol.indexOf D.inode = some n)
      (hdir : s₁.vol.isDirectory n = true) (htwo : D.nentries = 2)
      (hdots : s₁.onlyDots D.children = true) (hrun : s₁.removeDentryAndChildren d = .ok s₂)
      (hdes : s₂.destroyInode D.inode = .ok s₃) : RmdirEnds s path 0 s₃

/-- **What `fs_rmdir` can do.** -/
theorem rmdir_ends (hc : s.Coherent) (h : s.rmdir path = .ok (r, s')) :
    RmdirEnds s path r s' := by
  unfold rmdir at h
  split at h
  · cases h
    exact .tooLong
  obtain ⟨⟨r₁, s₁⟩, hrun₁, h⟩ := bind_eq_ok h
  have hf := dentryLookup_ok hc hrun₁
  cases r₁ with
  | none =>
    cases h
    exact .missing hf
  | some d =>
    obtain ⟨D, inode, n, hD, hl, hn, hof, hmode⟩ := hf.inode
    simp only [hD, hof, hmode] at h
    split at h
    · cases h
      exact .refused hf
    rename_i hdir
    split at h
    · cases h
      exact .refused hf
    rename_i htwo
    split at h
    · cases h
      exact .refused hf
    rename_i hdots
    obtain ⟨s₂, hrun, h⟩ := bind_eq_ok h
    obtain ⟨s₃, hdes, h⟩ := bind_eq_ok h
    cases h
    exact .removed hf hD hl hn (by simpa using hdir) (not_not.mp htwo) (by simpa using hdots) hrun hdes

end Fs

end Cyanurus
