import Cyanurus.Fs.Tidy
import Cyanurus.Fs.ZoneRun

/-!
# Runs of the file system

The calls of `src/kernel/fs.c` and lookups, in any order, from a volume that was just mounted.
Along every run of sound calls the cache of dentries and the directories on disk agree: a lookup
finds an inode exactly if the names lead to it on disk (**`lookup_agrees`**), and no entry names an
inode that is not allocated (**`no_dangling_entry`**). All calls write through, so a volume that
is mounted again shows what it showed before (**`remount_agrees`**).

To make a name of `NAME_MAX` bytes is no step: `write_child` would copy its terminator behind the
record, and the model stops there. The names that are made have up to 59 bytes.

Each condition on the calls is needed. A dentry `/.` that was looked up does not hear of a file
created in `/` (`lookup_disagrees`), and the root can be removed (`dangling_entry`).
-/

namespace Cyanurus

open Lts

variable {v : Volume} {s s' : Fs}

/-! ## Calls -/

inductive FsAct where
  | lookup (path : CString)
  | create (path : CString) (flags mode : Nat)
  | mkdir (path : CString) (mode : Nat)
  | unlink (path : CString)
  | rmdir (path : CString)
deriving DecidableEq, Repr

namespace FsAct

def path : FsAct → CString
  | lookup path => path
  | create path _ _ => path
  | mkdir path _ => path
  | unlink path => path
  | rmdir path => path

/-- The state after the call. -/
def call (s : Fs) : FsAct → Except Halt Fs
  | lookup path => (s.dentryLookup path).map Prod.snd
  | create path flags mode => (s.create path flags mode).map Prod.snd
  | mkdir path mode => (s.mkdir path mode).map Prod.snd
  | unlink path => (s.unlink path).map Prod.snd
  | rmdir path => (s.rmdir path).map Prod.snd

/-- The path is a string, without a zero. -/
def Spelled (a : FsAct) : Prop := 0 ∉ a.path

instance {a : FsAct} : Decidable a.Spelled := inferInstanceAs (Decidable (¬ _))

/-- The conditions under which a call keeps the tree and the cache in order. -/
def Sound (s : Fs) (a : FsAct) : Prop :=
  Fs.PlainPath a.path ∧
    match a with
    | create path _ _ => s.Takes path ∧ s.vol.Room 19
    | mkdir path _ => s.Takes path ∧ s.vol.Room 19
    | rmdir path => pathNames path ≠ []
    | _ => True

end FsAct

/-- A call that returns. One that makes a name of `NAME_MAX` bytes does not (`Fs.writeChild`). -/
def FsStep : Fs → FsAct → Fs → Prop :=
  Guarded (fun _ a => a.Spelled) fun s a s' => a.call s = .ok s'

theorem map_snd_eq_ok {α β : Type} {x : Except Halt (α × β)} {b : β} (h : x.map Prod.snd = .ok b) :
    ∃ a, x = .ok (a, b) := by
  obtain ⟨⟨a, b'⟩, hx, rfl⟩ := map_eq_ok h
  exact ⟨a, hx⟩

theorem Volume.Room.mono {k l : Nat} (h : v.Room l) (hle : k ≤ l) : v.Room k :=
  ⟨h.1, Nat.lt_of_le_of_lt hle h.2⟩

/-- **A sound call keeps the cache tidy.** -/
theorem fsStep_tidy {a : FsAct} (hs : s.Tidy) (ha : a.Sound s) (h : FsStep s a s') : s'.Tidy := by
  obtain ⟨h0, h⟩ := h
  obtain ⟨hp, ha⟩ := ha
  cases a with
  | lookup path =>
    obtain ⟨r, hrun⟩ := map_snd_eq_ok h
    obtain ⟨r', s₁, hrun', hf⟩ := Fs.dentryLookup_found hs.toCoherent path
    rw [hrun] at hrun'
    cases hrun'
    exact hf.tried.tidy hs hp
  | create path flags mode =>
    obtain ⟨r, hrun⟩ := map_snd_eq_ok h
    exact (Fs.create_ends hs.toCoherent h0 ha.1 hrun).tidy hs hp ha.1 (ha.2.mono (by decide))
  | mkdir path mode =>
    obtain ⟨r, hrun⟩ := map_snd_eq_ok h
    exact (Fs.mkdir_ends hs.toCoherent h0 ha.1 hrun).tidy hs hp ha.1 ha.2
  | unlink path =>
    obtain ⟨r, hrun⟩ := map_snd_eq_ok h
    exact (Fs.unlink_ends hs.toCoherent hrun).tidy hs hp
  | rmdir path =>
    obtain ⟨r, hrun⟩ := map_snd_eq_ok h
    exact (Fs.rmdir_ends hs.toCoherent hrun).tidy hs hp ha

/-! ## Mounting -/

/-- A volume whose directories are in order. No inode has two plain names. -/
structure Volume.Formed (v : Volume) : Prop where
  mounted : v.Mounted
  small : v.sb.sZones ≤ 2 ^ 16
  dirs : ∀ {n}, Allocated v.sb v.disk n → v.isDirectory n = true → v.DirOk n
  root : v.isDirectory 1 = true
  tree : v.tree.Ok signs

theorem Volume.Formed.ready (hv : v.Formed) : v.Ready := by
  refine ⟨hv.mounted.inv hv.small, fun {p inode} hp => ?_, hv.dirs⟩
  rw [hv.mounted.inodes] at hp
  cases hp

theorem mount_tidy (hv : v.Formed) : (Fs.mount v).Tidy := by
  have hroot : Allocated v.sb v.disk 1 := hv.tree.root
  obtain ⟨hready, hsb, hdisk, hidx, _⟩ := hv.ready.get hroot
  have hmount : Fs.mount v =
      ⟨(inodeGet v 1).2, Store.empty.alloc ⟨[], false, 0, (inodeGet v 1).1, 0, []⟩, 0⟩ := rfl
  rw [hmount]
  generalize inodeGet v 1 = q at hready hsb hdisk hidx
  obtain ⟨p, w⟩ := q
  -- the root is the only dentry
  have hget : ∀ {d D}, (Store.empty.alloc (⟨[], false, 0, p, 0, []⟩ : Dentry)).get d = some D →
      d = 0 ∧ D = ⟨[], false, 0, p, 0, []⟩ := by
    intro d D hd
    by_cases h0 : d = 0
    · subst h0
      exact ⟨rfl, (Option.some.inj hd).symm⟩
    · rw [Store.alloc_ne h0] at hd
      cases hd
  have htree : w.tree = v.tree := by
    unfold Volume.tree
    rw [hsb, hdisk, funext (entries_of_disk hsb hdisk)]
  refine ⟨⟨hready, by rw [htree]; exact hv.tree, ⟨⟨_, Store.alloc_self, rfl⟩, fun hd hne => ?_,
    fun hd hc => ?_, fun hd => ?_, fun hd => ?_, fun hd _ => ?_⟩, fun hR => ?_,
    (sameFile_of_disk hsb hdisk 1).isDirectory.trans hv.root, fun hd => ?_, fun hd hl _ => ?_⟩,
    fun hd hl => .inl (hget hd).1⟩
  · exact absurd (hget hd).1 hne
  · rw [(hget hd).2] at hc
    cases hc
  · rw [(hget hd).2]
    exact List.nodup_nil
  · rw [(hget hd).2]
    rfl
  · rw [(hget hd).2]
  · rw [(hget hR).2]
    exact hidx
  · rw [(hget hd).2]
    exact ⟨1, hidx⟩
  · rw [(hget hd).2] at hl
    cases hl

/-- The states that sound calls lead to. -/
theorem tidy_of_run {as : List FsAct} (hv : v.Formed)
    (hr : Run (Guarded FsAct.Sound FsStep) (Fs.mount v) as s) : s.Tidy :=
  hr.invariant (mount_tidy hv) fun _ _ _ hs h => fsStep_tidy hs h.1 h.2

/-- **A lookup finds an inode exactly if the names lead to it on disk.** -/
theorem lookup_agrees {as : List FsAct} {path : CString} {n : Nat} (hv : v.Formed)
    (hr : Run (Guarded FsAct.Sound FsStep) (Fs.mount v) as s) (habs : Absolute path)
    (hlen : path.length < pathMax) :
    (∃ d D s', s.dentryLookup path = .ok (some d, s') ∧ s'.dentries.get d = some D
        ∧ s'.vol.indexOf D.inode = some n)
      ↔ s.vol.tree.Leads 1 (pathNames path) n := by
  obtain ⟨r, s', hrun, hf⟩ := Fs.dentryLookup_found (tidy_of_run hv hr).toCoherent path
  constructor
  · rintro ⟨d, D, s'', hrun', hD, hn⟩
    rw [hrun] at hrun'
    cases hrun'
    exact ((hf.leads n).mp ⟨d, D, rfl, hD, hn⟩).2.2
  · intro hl
    obtain ⟨d, D, rfl, hD, hn⟩ := (hf.leads n).mpr ⟨habs, hlen, hl⟩
    exact ⟨d, D, s', hrun, hD, hn⟩

/-- **Every entry names an allocated inode**, and the root stays. -/
theorem no_dangling_entry {as : List FsAct} (hv : v.Formed)
    (hr : Run (Guarded FsAct.Sound FsStep) (Fs.mount v) as s) :
    (∀ {n e}, Allocated s.vol.sb s.vol.disk n → e ∈ s.vol.entries n → Allocated s.vol.sb s.vol.disk e.1)
      ∧ Allocated s.vol.sb s.vol.disk 1 := by
  have htree := (tidy_of_run hv hr).tree
  exact ⟨htree.used, htree.root⟩

/-! ## Mounting again -/

/-- The lookup of the path ends at a dentry of the inode `n`. -/
def Fs.Finds (s : Fs) (path : CString) (n : Nat) : Prop :=
  ∃ d D s', s.dentryLookup path = .ok (some d, s') ∧ s'.dentries.get d = some D
    ∧ s'.vol.indexOf D.inode = some n

theorem Fs.Coherent.finds_iff {path : CString} {n : Nat} (hc : s.Coherent) :
    s.Finds path n ↔ Absolute path ∧ path.length < pathMax ∧ s.vol.tree.Leads 1 (pathNames path) n := by
  obtain ⟨r, s', hrun, hf⟩ := Fs.dentryLookup_found hc path
  rw [← hf.leads n]
  constructor
  · rintro ⟨d, D, s'', hrun', hD⟩
    rw [hrun] at hrun'
    cases hrun'
    exact ⟨d, D, rfl, hD⟩
  · rintro ⟨d, D, rfl, hD⟩
    exact ⟨d, D, s', hrun, hD⟩

/-- What is left of a volume when the machine is switched off. -/
def Volume.unmounted (v : Volume) : Volume := { v with inodes := .empty, list := [] }

theorem Fs.Coherent.formed (hc : s.Coherent) : s.vol.unmounted.Formed where
  mounted := ⟨hc.ready.inv.layout, Volume.ownsZones_iff.mpr hc.ready.inv.zones, rfl, rfl⟩
  small := hc.ready.inv.small
  dirs := fun hn hd =>
    let ⟨h₁, h₂, h₃⟩ := hc.ready.dirs hn hd
    ⟨h₁, h₂, h₃⟩
  root := hc.rootDir
  tree := hc.tree

theorem mount_tree (hv : v.Formed) : (Fs.mount v).vol.tree = v.tree := by
  have hroot : Allocated v.sb v.disk 1 := hv.tree.root
  obtain ⟨_, hsb, hdisk, _⟩ := hv.ready.get hroot
  show Volume.tree (inodeGet v 1).2 = v.tree
  unfold Volume.tree
  rw [hsb, hdisk, funext (entries_of_disk hsb hdisk)]

/-- **Nothing is lost when the machine is switched off.** -/
theorem remount_agrees {as : List FsAct} (hv : v.Formed)
    (hr : Run (Guarded FsAct.Sound FsStep) (Fs.mount v) as s) :
    s.vol.unmounted.Formed
      ∧ ∀ path n, (Fs.mount s.vol.unmounted).Finds path n ↔ s.Finds path n := by
  have hc := (tidy_of_run hv hr).toCoherent
  refine ⟨hc.formed, fun path n => ?_⟩
  rw [(mount_tidy hc.formed).toCoherent.finds_iff, mount_tree hc.formed, hc.finds_iff]
  rfl

/-! ## A volume with only the root -/

def rootInode (size : Nat) : Bytes :=
  setZone (setSize (setNlinks (setMode (fun _ => 0) 0o40755) 2) size) 0 5

/-- Inode 1 is a directory, with `.` and `..` in zone 5. There are 33 more zones. Or the directory
has cleared records up to the last one that goes into its block, and there is one more zone. -/
def rootVolume (full : Bool) : Volume where
  sb := ⟨64, 1, 1, 5, if full then 8 else 40⟩
  disk := fun b =>
    if b = 2 ∨ b = 3 then fun x => if x = 0 then 3 else 0
    else if b = 4 then Bytes.copy (fun _ => 0) 0 (rootInode (if full then 4032 else 128)) 0 64
    else if b = 5 then fun x =>
      if x < 64 then direntBytes 1 dot x else if x < 128 then direntBytes 1 dotdot (x - 64) else 0
    else fun _ => 0
  inodes := Store.empty
  list := []

section Root

variable {full : Bool} {n : Nat}

theorem rootVolume_allocated (h : Allocated (rootVolume full).sb (rootVolume full).disk n) : n = 1 := by
  have hbits : ∀ n ≤ 64, imapBit (rootVolume full).disk n = true → n = 0 ∨ n = 1 := by
    cases full <;> decide
  exact (hbits n h.1.2 h.2).resolve_left (Nat.ne_of_gt h.1.1)

theorem rootVolume_slot {k : Nat} {q : List Nat}
    (hn : Allocated (rootVolume full).sb (rootVolume full).disk n) (hs : IsSlot k q)
    (h0 : zoneOf (rootVolume full).disk (readInode (rootVolume full).sb (rootVolume full).disk n) k q ≠ 0) :
    n = 1 ∧ k = 0 ∧ q = []
      ∧ zoneOf (rootVolume full).disk (readInode (rootVolume full).sb (rootVolume full).disk n) k q = 5 := by
  have hzones : ∀ k ≤ 8, iZone (readInode (rootVolume full).sb (rootVolume full).disk 1) k
      = if k = 0 then 5 else 0 := by cases full <;> decide
  obtain rfl := rootVolume_allocated hn
  have hroot := hzones k hs.1
  by_cases hk : k = 0
  · subst hk
    have hq : q = [] := List.length_eq_zero_iff.mp (Nat.le_zero.mp hs.2.1)
    subst hq
    exact ⟨rfl, rfl, rfl, hroot⟩
  · rw [if_neg hk] at hroot
    exact absurd (zoneOf_empty hroot q) h0

theorem rootVolume_mounted : (rootVolume full).Mounted := by
  refine ⟨?_, ⟨fun hn hs h0 => ?_, fun hn hs h0 => ?_, fun hn hs hm hq h0 he => ?_⟩, rfl, rfl⟩
  · cases full <;> exact ⟨by decide, by decide, by decide, by decide⟩
  · rw [(rootVolume_slot hn hs h0).2.2.2]
    cases full <;> exact ⟨by decide, by decide⟩
  · rw [(rootVolume_slot hn hs h0).2.2.2]
    cases full <;> decide
  · obtain ⟨rfl, rfl, rfl, _⟩ := rootVolume_slot hn hs h0
    obtain ⟨rfl, rfl, rfl, _⟩ := rootVolume_slot hm hq (by rw [← he]; exact h0)
    exact ⟨rfl, rfl, rfl⟩

theorem rootVolume_entries : (rootVolume full).entries 1 = [(1, dot), (1, dotdot)] := by
  cases full <;> decide

theorem rootVolume_formed : (rootVolume full).Formed := by
  have hsign : ∀ {n e}, (rootVolume full).tree.used n → e ∈ (rootVolume full).entries n →
      n = 1 ∧ (e = (1, dot) ∨ e = (1, dotdot)) := by
    intro n e hn he
    obtain rfl := rootVolume_allocated hn
    rw [rootVolume_entries] at he
    exact ⟨rfl, by simpa using he⟩
  have hroot : (rootVolume full).tree.used 1 := by
    cases full <;> exact ⟨⟨by decide, by decide⟩, by decide⟩
  have hplain : ∀ {n m x}, (rootVolume full).tree.used n → signs.Plain x →
      (m, x) ∉ (rootVolume full).entries n := by
    intro n m x hn hx hm
    rcases (hsign hn hm).2 with h | h
    · exact hx.1 (congrArg Prod.snd h)
    · exact hx.2 (congrArg Prod.snd h)
  refine ⟨rootVolume_mounted, by cases full <;> decide, fun hn _ => ?_, by cases full <;> decide,
    ⟨hroot, fun hn he => ?_, fun {n} hn => ?_, fun hn _ hx _ hm _ => absurd hm (hplain hn hx),
      fun hn hm hx => hplain hn hx hm, fun hn hm => ?_, fun hn hm => .inl ?_⟩⟩
  · obtain rfl := rootVolume_allocated hn
    refine ⟨by cases full <;> decide, by cases full <;> decide, fun b hb => ?_⟩
    have hzero : (rootVolume full).sizeOf 1 / blockSize = 0 := by cases full <;> decide
    rw [hzero] at hb
    obtain rfl := Nat.le_zero.mp hb
    unfold Volume.Mapped
    cases full <;> decide
  · rcases (hsign hn he).2 with rfl | rfl <;> exact hroot
  · obtain rfl := rootVolume_allocated hn
    show (((rootVolume full).entries 1).map Prod.snd).Nodup
    rw [rootVolume_entries]
    decide
  · obtain ⟨rfl, h⟩ := hsign hn hm
    rcases h with h | h <;> exact congrArg Prod.fst h
  · obtain ⟨rfl, h⟩ := hsign hn hm
    refine ⟨rfl, ?_⟩
    rcases h with h | h <;> exact congrArg Prod.fst h

/-- Calls with one name in a path, on a root directory that is not full. -/
def FsAct.Near (s : Fs) (a : FsAct) : Prop :=
  a.Spelled ∧ (∀ x ∈ pathNames a.path, x ≠ dot ∧ x ≠ dotdot) ∧ pathNames a.path ≠ []
    ∧ pathNames (dirname a.path) = [] ∧ s.vol.isDirectory 1 = true
    ∧ s.vol.sizeOf 1 + direntSize < 7 * blockSize ∧ s.vol.Room 19

instance {sb : Superblock} {d : Disk} {n : Nat} : Decidable (Allocated sb d n) :=
  inferInstanceAs (Decidable ((1 ≤ n ∧ n ≤ sb.sNinodes) ∧ imapBit d n = true))

instance {k : Nat} : Decidable (v.Room k) := inferInstanceAs (Decidable (_ ∧ _))

instance {a : FsAct} : Decidable (a.Near s) := inferInstanceAs (Decidable (_ ∧ _))

theorem FsAct.Near.sound {a : FsAct} (h : a.Near s) : a.Sound s := by
  obtain ⟨_, hplain, hne, hdir, hroot, hsize, hroom⟩ := h
  have htakes : s.Takes a.path := fun {n} hl => by
    rw [hdir] at hl
    obtain rfl : 1 = n := hl
    exact ⟨hroot, Fs.grows_small hsize⟩
  refine ⟨fun _ => hplain, ?_⟩
  cases a with
  | create path flags mode => exact ⟨htakes, hroom⟩
  | mkdir path mode => exact ⟨htakes, hroom⟩
  | rmdir path => exact hne
  | lookup path => trivial
  | unlink path => trivial

theorem near_run {full : Bool} {as : List FsAct} (hr : Run (Guarded (fun s a => a.Near s)
    fun s a s' => a.call s = .ok s') (Fs.mount (rootVolume full)) as s) :
    Run (Guarded FsAct.Sound FsStep) (Fs.mount (rootVolume full)) as s :=
  hr.mono fun h => ⟨h.1.sound, h.1.1, h.2⟩

/-- A directory and a file are made, and the file is looked up through the directory. -/
theorem lookup_agrees_root : ∃ s, Run (Guarded FsAct.Sound FsStep) (Fs.mount (rootVolume false))
    [.mkdir [47, 97] 0o755, .create [47, 102] 0 0o644] s
    ∧ ((∃ d D s', s.dentryLookup [47, 97, 47, 46, 46, 47, 102] = .ok (some d, s')
        ∧ s'.dentries.get d = some D ∧ s'.vol.indexOf D.inode = some 3)
      ↔ s.vol.tree.Leads 1 (pathNames [47, 97, 47, 46, 46, 47, 102]) 3) := by
  obtain ⟨s, hr, -⟩ := Run.of_checked_probe (fun s a => a.Near s) (fun s a => FsAct.call s a) .fault
    (Fs.mount (rootVolume false)) [.mkdir [47, 97] 0o755, .create [47, 102] 0 0o644] (fun _ => ())
    (b := ()) (by decide)
  exact ⟨s, near_run hr, lookup_agrees rootVolume_formed (near_run hr) rfl (by decide)⟩

/-- The dentry `/.` was loaded before the file was created. -/
theorem lookup_disagrees : ¬ ∀ (v : Volume) (as : List FsAct) (s : Fs) (path : CString) (n : Nat),
    v.Formed → Run (Guarded (fun s _ => s.vol.Room 19) FsStep) (Fs.mount v) as s → Absolute path →
    path.length < pathMax →
    ((∃ d D s', s.dentryLookup path = .ok (some d, s') ∧ s'.dentries.get d = some D
        ∧ s'.vol.indexOf D.inode = some n)
      ↔ s.vol.tree.Leads 1 (pathNames path) n) := by
  intro hall
  obtain ⟨s, hr, hs⟩ := Run.of_checked_probe (fun s a => s.vol.Room 19 ∧ a.Spelled)
    (fun s a => FsAct.call s a) .fault (Fs.mount (rootVolume false))
    [.lookup [47, 46], .create [47, 102] 0 0o644]
    (fun s => (s.vol.entries 1, (s.dentryLookup [47, 46, 47, 102]).toOption.map fun r => r.1))
    (b := ([(1, dot), (1, dotdot), (2, [102])], some none)) (by decide)
  obtain ⟨hent, hlook⟩ := Prod.mk.inj hs
  have hleads : s.vol.tree.Leads 1 (pathNames [47, 46, 47, 102]) 2 := by
    refine ⟨1, ?_, 2, ?_, rfl⟩
    · show _ ∈ s.vol.entries 1
      rw [hent]
      decide
    · show _ ∈ s.vol.entries 1
      rw [hent]
      decide
  obtain ⟨d, D, s', hrun, _⟩ := (hall _ _ s [47, 46, 47, 102] 2 rootVolume_formed
    (hr.mono fun h => ⟨h.1.1, h.1.2, h.2⟩) rfl (by decide)).mpr hleads
  rw [hrun] at hlook
  cases hlook

/-- A directory comes and goes. -/
theorem no_dangling_entry_root : ∃ s, Run (Guarded FsAct.Sound FsStep) (Fs.mount (rootVolume false))
    [.mkdir [47, 97] 0o755, .rmdir [47, 97]] s
    ∧ (∀ {n e}, Allocated s.vol.sb s.vol.disk n → e ∈ s.vol.entries n →
      Allocated s.vol.sb s.vol.disk e.1) ∧ Allocated s.vol.sb s.vol.disk 1 := by
  obtain ⟨s, hr, -⟩ := Run.of_checked_probe (fun s a => a.Near s) (fun s a => FsAct.call s a) .fault
    (Fs.mount (rootVolume false)) [.mkdir [47, 97] 0o755, .rmdir [47, 97]] (fun _ => ()) (b := ())
    (by decide)
  exact ⟨s, near_run hr, no_dangling_entry rootVolume_formed (near_run hr)⟩

/-- A directory is there after the machine was switched off. -/
theorem remount_agrees_root : ∃ s, Run (Guarded FsAct.Sound FsStep) (Fs.mount (rootVolume false))
    [.mkdir [47, 97] 0o755] s ∧ s.vol.unmounted.Formed
    ∧ ∀ path n, (Fs.mount s.vol.unmounted).Finds path n ↔ s.Finds path n := by
  obtain ⟨s, hr, -⟩ := Run.of_checked_probe (fun s a => a.Near s) (fun s a => FsAct.call s a) .fault
    (Fs.mount (rootVolume false)) [.mkdir [47, 97] 0o755] (fun _ => ()) (b := ()) (by decide)
  exact ⟨s, near_run hr, remount_agrees rootVolume_formed (near_run hr)⟩

/-- `rmdir /` takes the root away. -/
theorem dangling_entry : ¬ ∀ (v : Volume) (as : List FsAct) (s : Fs), v.Formed →
    Run FsStep (Fs.mount v) as s →
    (∀ {n e}, Allocated s.vol.sb s.vol.disk n → e ∈ s.vol.entries n →
      Allocated s.vol.sb s.vol.disk e.1) ∧ Allocated s.vol.sb s.vol.disk 1 := by
  intro hall
  obtain ⟨s, hr, hs⟩ := Run.of_checked_probe (fun _ a => FsAct.Spelled a)
    (fun s a => FsAct.call s a) .fault (Fs.mount (rootVolume false)) [.rmdir [47]]
    (fun s => imapBit s.vol.disk 1) (b := false) (by decide)
  have hbit := (hall _ _ s rootVolume_formed hr).2.2
  rw [hs] at hbit
  cases hbit

end Root

end Cyanurus
