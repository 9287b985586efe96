import Cyanurus.Fs.Directory
import Cyanurus.Fs.Tree
import Cyanurus.Lib.NameTree
import Mathlib.Data.List.Find

/-!
# The cache of dentries agrees with the directories on disk

`Fs.Coherent` relates the two: the dentries form a tree under `root_dentry` by their parents and
children, each has its inode in memory, and the children of a dentry that has been loaded are,
in some order, the entries of its directory on disk. A dentry that has not been loaded has no
children. Loading one keeps this, and so does looking up any path; what a lookup finds is what
the names lead to on disk.

A directory can have several dentries: its own, the `.` in it and the `..` in each directory
below. Nothing here needs them to be different from each other. That a change of the directory
reaches only one of them is where the cache and the disk part ways.
-/

namespace Cyanurus

/-- What the path names mean on disk. -/
def Volume.tree (v : Volume) : NameTree Nat CString := ⟨Allocated v.sb v.disk, v.entries⟩

/-- Inode 1 is the root directory. -/
def signs : NameTree.Signs Nat CString := ⟨1, dot, dotdot, by decide⟩

namespace Fs

/-- The entry a dentry stands for. -/
def key (s : Fs) (c : Nat) : Nat × CString :=
  match s.dentries.get c with
  | none => (0, [])
  | some C => ((s.vol.indexOf C.inode).getD 0, C.name)

end Fs

/-- Dentries as a tree under `root`. -/
structure Linked (st : Store Dentry) (root : Nat) : Prop where
  top : ∃ R, st.get root = some R ∧ R.parent = root
  up : ∀ {d D}, st.get d = some D → d ≠ root →
    D.parent < d ∧ ∃ P, st.get D.parent = some P ∧ d ∈ P.children
  down : ∀ {d D c}, st.get d = some D → c ∈ D.children → c ≠ root ∧ ∃ C, st.get c = some C ∧ C.parent = d
  nodup : ∀ {d D}, st.get d = some D → D.children.Nodup
  count : ∀ {d D}, st.get d = some D → D.nentries = D.children.length
  unloaded : ∀ {d D}, st.get d = some D → D.loaded = false → D.children = []

namespace Fs

structure Coherent (s : Fs) : Prop where
  ready : s.vol.Ready
  tree : s.vol.tree.Ok signs
  links : Linked s.dentries s.root
  root : ∀ {R}, s.dentries.get s.root = some R → s.vol.indexOf R.inode = some 1
  rootDir : s.vol.isDirectory 1 = true
  object : ∀ {d D}, s.dentries.get d = some D → ∃ n, s.vol.indexOf D.inode = some n
  /-- What has been read is what is on disk. -/
  loaded : ∀ {d D n}, s.dentries.get d = some D → D.loaded = true → s.vol.indexOf D.inode = some n →
    (D.children.map s.key).Perm (s.vol.entries n)

variable {s s' s'' : Fs} {d c n p : Nat} {D : Dentry}
  {e : Nat × CString} {es : List (Nat × CString)} {v : Volume} {f : Dentry → Dentry}

theorem key_of_get (h : s.dentries.get d = some D) (hn : s.vol.indexOf D.inode = some n) :
    s.key d = (n, D.name) := by
  simp only [key, h, hn, Option.getD_some]

/-! ## Reading a directory -/

/-- The dentry for one record of the directory `d`. -/
def readSlot (d : Nat) (r : List Nat × Fs) (e : Nat × CString) : List Nat × Fs :=
  if e.1 = 0 then r
  else
    let (p, vol) := inodeGet r.2.vol e.1
    let (c, s) := { r.2 with vol }.allocDentry (some d) p e.2
    (c :: r.1, s)

/-- `cs` are new dentries in `s'` for the records `es` of the directory `d`. -/
structure Filled (s : Fs) (d : Nat) (cs : List Nat) (s' : Fs) (es : List (Nat × CString)) : Prop where
  ready : s'.vol.Ready
  sb : s'.vol.sb = s.vol.sb
  disk : s'.vol.disk = s.vol.disk
  root : s'.root = s.root
  index : ∀ {q m}, s.vol.indexOf q = some m → s'.vol.indexOf q = some m
  next : s.dentries.next ≤ s'.dentries.next
  old : ∀ {q}, q < s.dentries.next → s'.dentries.get q = s.dentries.get q
  /-- Every new dentry is one of `cs`. -/
  mem : ∀ {q}, s.dentries.next ≤ q → (s'.dentries.get q).isSome → q ∈ cs
  new : ∀ {c}, c ∈ cs → s.dentries.next ≤ c ∧ ∃ name p m,
    s'.dentries.get c = some ⟨name, false, 0, p, d, []⟩ ∧ s'.vol.indexOf p = some m
  nodup : cs.Nodup
  keys : cs.map s'.key = (es.filter (·.1 ≠ 0)).reverse

theorem Filled.nil (hv : s.vol.Ready) (d : Nat) : Filled s d [] s [] where
  ready := hv
  sb := rfl
  disk := rfl
  root := rfl
  index := id
  next := Nat.le_refl _
  old := fun _ => rfl
  mem := fun {q} hq h => by
    rw [s.dentries.fresh q hq] at h
    cases h
  new := fun h => absurd h (by simp)
  nodup := List.nodup_nil
  keys := rfl

/-- The key of a dentry that is still there. -/
theorem key_congr (hget : s'.dentries.get c = s.dentries.get c)
    (hD : s.dentries.get c = some D) (hn : s.vol.indexOf D.inode = some n)
    (hn' : s'.vol.indexOf D.inode = some n) : s'.key c = s.key c := by
  rw [key_of_get (hget.trans hD) hn', key_of_get hD hn]

/-- One more record is read. -/
theorem Filled.cons {cs : List Nat}
    (h : Filled s d cs s' es) (cs₀ : List Nat) (ha : e.1 ≠ 0 → Allocated s.vol.sb s.vol.disk e.1)
    (hlen : e.2.length ≤ nameMax) :
    ∃ cs' s'', readSlot d (cs ++ cs₀, s') e = (cs' ++ cs₀, s'') ∧ Filled s d cs' s'' (es ++ [e]) := by
  unfold readSlot
  by_cases h0 : e.1 = 0
  · rw [if_pos h0]
    refine ⟨cs, s', rfl, { h with keys := ?_ }⟩
    rw [h.keys, List.filter_append, List.filter_cons_of_neg (by simpa using h0), List.filter_nil,
      List.append_nil]
  · rw [if_neg h0]
    have hal : Allocated s'.vol.sb s'.vol.disk e.1 := by
      rw [h.sb, h.disk]
      exact ha h0
    obtain ⟨hready, hsb, hdisk, hidx, hmono⟩ := h.ready.get hal
    have htake : e.2.take nameMax = e.2 := List.take_of_length_le hlen
    generalize inodeGet s'.vol e.1 = r at hready hsb hdisk hidx hmono
    obtain ⟨p, vol⟩ := r
    have hnew : (s'.dentries.alloc ⟨e.2.take nameMax, false, 0, p, d, []⟩).get s'.dentries.next
        = some ⟨e.2.take nameMax, false, 0, p, d, []⟩ := Store.alloc_self
    have hkeep : ∀ {q}, q ≠ s'.dentries.next →
        (s'.dentries.alloc ⟨e.2.take nameMax, false, 0, p, d, []⟩).get q = s'.dentries.get q :=
      fun hq => Store.alloc_ne hq
    refine ⟨s'.dentries.next :: cs, _, rfl, ⟨hready, hsb.trans h.sb, hdisk.trans h.disk, h.root,
      fun hq => hmono (h.index hq), Nat.le_succ_of_le h.next, fun {q} hq => ?_, fun {q} hq hs => ?_,
      fun {c} hc => ?_, List.nodup_cons.mpr ⟨fun hc => ?_, h.nodup⟩, ?_⟩⟩
    · exact (hkeep (by have := h.next; omega)).trans (h.old hq)
    · by_cases hqn : q = s'.dentries.next
      · exact hqn ▸ List.mem_cons_self ..
      · exact List.mem_cons_of_mem _ (h.mem hq (by rw [← hkeep hqn]; exact hs))
    · rcases List.mem_cons.mp hc with rfl | hc
      · exact ⟨h.next, _, _, _, hnew, hidx⟩
      · obtain ⟨hle, name, p', m, hget, hm⟩ := h.new hc
        exact ⟨hle, name, p', m, Store.alloc_of_some hget, hmono hm⟩
    · obtain ⟨_, name, p', m, hget, _⟩ := h.new hc
      exact absurd (Store.lt_next hget) (Nat.lt_irrefl _)
    · rw [List.map_cons, List.filter_append, List.filter_cons_of_pos (by simpa using h0),
        List.filter_nil, List.reverse_append, ← h.keys, List.reverse_singleton, List.singleton_append]
      refine congrArg₂ List.cons ?_ (List.map_congr_left fun c hc => ?_)
      · rw [key_of_get hnew hidx, htake]
      · obtain ⟨_, name, p', m, hget, hm⟩ := h.new hc
        exact key_congr (hkeep (Nat.ne_of_lt (Store.lt_next hget))) hget hm (hmono hm)

/-- **All records are read.** -/
theorem readSlots_filled (hv : s.vol.Ready) (d : Nat) (cs₀ : List Nat)
    (ha : ∀ e ∈ es, e.1 ≠ 0 → Allocated s.vol.sb s.vol.disk e.1)
    (hlen : ∀ e ∈ es, e.2.length ≤ nameMax) :
    ∃ cs s', es.foldl (readSlot d) (cs₀, s) = (cs ++ cs₀, s') ∧ Filled s d cs s' es := by
  induction es using List.reverseRecOn with
  | nil => exact ⟨[], s, rfl, .nil hv d⟩
  | append_singleton es e ih =>
    obtain ⟨cs, s', hfold, hf⟩ := ih (fun x hx => ha x (List.mem_append_left _ hx))
      fun x hx => hlen x (List.mem_append_left _ hx)
    have he : e ∈ es ++ [e] := List.mem_append_right _ (List.mem_singleton_self e)
    obtain ⟨cs', s'', hread, hf'⟩ := hf.cons cs₀ (ha e he) (hlen e he)
    refine ⟨cs', s'', ?_, hf'⟩
    rw [List.foldl_append, hfold, List.foldl_cons, List.foldl_nil, hread]

/-- The records of one block. -/
theorem block_slots {o rs : Nat} {b : Bytes} (ho : o % direntSize = 0)
    (hrs : rs % direntSize = 0) (hle : o + rs ≤ v.sizeOf n)
    (hb : ∀ x, x < rs → b x = v.readAt n (o + x)) :
    (direntOffsets rs).map (dirent b) = ((v.slots n).drop (o / direntSize)).take (rs / direntSize) := by
  refine List.ext_getElem? fun j => ?_
  unfold direntOffsets
  rw [List.map_map, List.getElem?_map]
  rcases Nat.lt_or_ge j (rs / direntSize) with hj | hj
  · have hjo : o / direntSize + j < v.sizeOf n / direntSize := by
      unfold direntSize at *
      omega
    rw [List.getElem?_range hj, List.getElem?_take_of_lt hj, List.getElem?_drop, getElem?_slots hjo]
    refine congrArg some (dirent_congr fun x hx => ?_)
    have hx' : j * direntSize + x < rs := by
      unfold direntSize at *
      omega
    rw [hb _ hx']
    congr 1
    unfold direntSize at *
    omega
  · rw [List.getElem?_eq_none (by rw [List.length_range]; exact hj),
      List.getElem?_eq_none (Nat.le_trans (List.length_take_le ..) hj)]
    rfl

/-- The records of a directory whose entries name allocated inodes. -/
structure Named (v : Volume) (n : Nat) : Prop where
  dir : v.isDirectory n = true
  ok : v.DirOk n
  used : ∀ e ∈ v.slots n, e.1 ≠ 0 → Allocated v.sb v.disk e.1

theorem Named.of_disk {w : Volume} (h : Named v n) (hsb : w.sb = v.sb) (hd : w.disk = v.disk) :
    Named w n := by
  have hsame := sameFile_of_disk hsb hd n
  refine ⟨hsame.isDirectory.trans h.dir, hsame.dirOk h.ok, ?_⟩
  rw [slots_of_disk hsb hd, hsb, hd]
  exact h.used

theorem slots_length_le (h : e ∈ v.slots n) :
    e.2.length ≤ nameMax := by
  obtain ⟨i, _, rfl⟩ := List.mem_map.mp h
  exact (slot_name v n i).1

/-- **The loop of `read_children` makes a dentry for every entry** that is not read yet. -/
theorem readBlocks_eq (d : Nat) : ∀ (fuel : Nat) {s : Fs} {o : Nat} {cs : List Nat}, s.vol.Ready →
    s.vol.indexOf p = some n → Named s.vol n → o % direntSize = 0 → o ≤ s.vol.sizeOf n →
    s.vol.sizeOf n - o + blockSize ≤ fuel * blockSize →
    readBlocks d p fuel s o cs
      = .ok (true, ((s.vol.slots n).drop (o / direntSize)).foldl (readSlot d) (cs, s))
  | 0, s, o, cs, _, _, _, _, _, hfuel => by
    unfold blockSize at hfuel
    omega
  | fuel + 1, s, o, cs, hv, hp, hd, ho, hle, hfuel => by
    obtain ⟨inode, hget, hn⟩ := indexOf_eq_some.mp hp
    have hsize : inode.size = s.vol.sizeOf n := hn ▸ (hv.inv.live hget).2
    have hsmall := hd.ok.small
    have hwhole := hd.ok.whole
    have hmax : maxSize = 268431360 := rfl
    have hread := inodeRead_eq hv.inv.sited hget (hv.inv.live hget).1 (by omega)
      (show o + blockSize < 2 ^ 32 by unfold blockSize; omega) fun _ => 0
    rw [hsize, hn] at hread
    rw [readBlocks, hread]
    generalize hrs : min blockSize (s.vol.sizeOf n - o) = rs
    have hmod : rs % direntSize = 0 := by
      unfold blockSize direntSize at *
      omega
    simp only [bind, Except.bind, Int.toNat_natCast]
    rw [if_neg (by omega)]
    by_cases h0 : rs = 0
    · -- nothing is left to read
      have hend : (s.vol.slots n).drop (o / direntSize) = [] := by
        refine List.drop_eq_nil_of_le ?_
        rw [slots_length]
        refine Nat.div_le_div_right ?_
        unfold blockSize at hrs
        omega
      rw [if_pos (by omega), hend]
      rfl
    · rw [if_neg (by omega)]
      have hblock : (direntOffsets rs).map (dirent fun x =>
            if x < rs then s.vol.readAt n (o + x) else 0)
          = ((s.vol.slots n).drop (o / direntSize)).take (rs / direntSize) :=
        block_slots ho hmod (by omega) fun x hx => if_pos hx
      have hfold : ∀ r, (direntOffsets rs).foldl (readEntry d fun x =>
            if x < rs then s.vol.readAt n (o + x) else 0) r
          = (((s.vol.slots n).drop (o / direntSize)).take (rs / direntSize)).foldl
              (readSlot d) r := by
        intro r
        rw [← hblock, List.foldl_map]
        rfl
      have hsub : ∀ e ∈ ((s.vol.slots n).drop (o / direntSize)).take (rs / direntSize),
          e ∈ s.vol.slots n := fun e he =>
        List.mem_of_mem_drop (List.mem_of_mem_take he)
      obtain ⟨cs', s', hrun, hf⟩ := readSlots_filled hv d cs (fun e he => hd.used e (hsub e he))
        fun e he => slots_length_le (hsub e he)
      have hslots := slots_of_disk hf.sb hf.disk n
      have hsize' : s'.vol.sizeOf n = s.vol.sizeOf n :=
        (sameFile_of_disk hf.sb hf.disk n).size
      have hround : (o + rs) % 2 ^ 32 = o + rs := Nat.mod_eq_of_lt (by omega)
      rw [hfold, hrun, hround]
      rw [readBlocks_eq d fuel hf.ready (hf.index hp) (hd.of_disk hf.sb hf.disk)
        (by unfold direntSize at *; omega) (by omega)
        (by rw [hsize']; unfold blockSize at *; omega), hslots, ← hrun, ← List.foldl_append]
      -- the records of this block, then the rest
      rw [show (o + rs) / direntSize = o / direntSize + rs / direntSize by
        unfold direntSize at *; omega, ← List.drop_drop, List.take_append_drop]

/-! ## Loading a dentry -/

/-- What looking up a path does: nothing to the disk, and dentries are only loaded. -/
structure Extends (s s' : Fs) : Prop where
  sb : s'.vol.sb = s.vol.sb
  disk : s'.vol.disk = s.vol.disk
  root : s'.root = s.root
  index : ∀ {q m}, s.vol.indexOf q = some m → s'.vol.indexOf q = some m
  old : ∀ {d D}, s.dentries.get d = some D → ∃ D', s'.dentries.get d = some D' ∧ D'.name = D.name
    ∧ D'.inode = D.inode ∧ D'.parent = D.parent ∧ (D.loaded = true → D' = D)

theorem Extends.refl (s : Fs) : s.Extends s :=
  ⟨rfl, rfl, rfl, id, fun h => ⟨_, h, rfl, rfl, rfl, fun _ => rfl⟩⟩

theorem Extends.trans (h : s.Extends s') (h' : s'.Extends s'') : s.Extends s'' := by
  refine ⟨h'.sb.trans h.sb, h'.disk.trans h.disk, h'.root.trans h.root, fun hq => h'.index (h.index hq),
    fun {d D} hd => ?_⟩
  obtain ⟨D', hd', hname, hino, hpar, hload⟩ := h.old hd
  obtain ⟨D'', hd'', hname', hino', hpar', hload'⟩ := h'.old hd'
  refine ⟨D'', hd'', hname'.trans hname, hino'.trans hino, hpar'.trans hpar, fun hl => ?_⟩
  have heq := hload hl
  exact (hload' (by rw [heq]; exact hl)).trans heq

theorem Extends.entries (h : s.Extends s') (n : Nat) : s'.vol.entries n = s.vol.entries n :=
  entries_of_disk h.sb h.disk n

theorem Extends.tree (h : s.Extends s') : s'.vol.tree = s.vol.tree := by
  unfold Volume.tree
  rw [h.sb, h.disk, funext h.entries]

/-- Only the root and dentries with plain names have been loaded. -/
def LoadedPlain (s : Fs) : Prop :=
  ∀ {d D}, s.dentries.get d = some D → D.loaded = true → d = s.root ∨ signs.Plain D.name

/-- The dentry `d` is the root, or has a plain name. -/
def PlainAt (s : Fs) (d : Nat) : Prop :=
  ∃ D, s.dentries.get d = some D ∧ (d = s.root ∨ signs.Plain D.name)

theorem Extends.plainAt (h : s.Extends s') (hd : s.PlainAt d) : s'.PlainAt d := by
  obtain ⟨D, hD, hplain⟩ := hd
  obtain ⟨D', hD', hname, _⟩ := h.old hD
  exact ⟨D', hD', by rw [hname, h.root]; exact hplain⟩

/-- The parent of a dentry has been loaded. -/
theorem Coherent.parent_loaded (hc : s.Coherent) (hd : s.dentries.get d = some D) (hne : d ≠ s.root) :
    ∃ P, s.dentries.get D.parent = some P ∧ P.loaded = true ∧ d ∈ P.children := by
  obtain ⟨_, P, hP, hmem⟩ := hc.links.up hd hne
  refine ⟨P, hP, ?_, hmem⟩
  cases hl : P.loaded with
  | true => rfl
  | false =>
    rw [hc.links.unloaded hP hl] at hmem
    cases hmem

/-- The records of a directory that is in memory. -/
theorem Coherent.named (hc : s.Coherent) (hn : Allocated s.vol.sb s.vol.disk n)
    (hd : s.vol.isDirectory n = true) : Named s.vol n := by
  refine ⟨hd, hc.ready.dirs hn hd, fun e he h0 => ?_⟩
  refine hc.tree.used hn (show e ∈ s.vol.entries n from ?_)
  unfold Volume.entries
  rw [if_pos hd]
  exact List.mem_filter.mpr ⟨he, by simpa using h0⟩

theorem slots_small (h : v.DirOk n) : (v.slots n).length < 2 ^ 32 := by
  have hmax : maxSize = 268431360 := rfl
  have := h.small
  rw [slots_length]
  unfold direntSize
  omega

theorem get_update_self (h : s.dentries.get d = some D) :
    (s.update d f).dentries.get d = some (f D) := Store.modify_self_of h rfl

theorem get_update_ne (h : c ≠ d) :
    (s.update d f).dentries.get c = s.dentries.get c := Store.modify_ne h

/-- A change that keeps name and inode keeps the keys. -/
theorem key_update (hname : ∀ D, (f D).name = D.name)
    (hino : ∀ D, (f D).inode = D.inode) (c : Nat) : (s.update d f).key c = s.key c := by
  unfold key
  by_cases hc : c = d
  · subst hc
    cases h : s.dentries.get c with
    | none =>
      have : (s.update c f).dentries.get c = none := by
        show (s.dentries.modify c f).get c = none
        rw [Store.modify_self, h]
        rfl
      rw [this]
    | some D =>
      rw [get_update_self h]
      simp only [hname, hino]
      rfl
  · rw [get_update_ne hc]
    rfl

end Fs

/-- The dentry `d` is loaded: its children are the new dentries `cs`. -/
structure Loads (st st' : Store Dentry) (d : Nat) (D : Dentry) (cs : List Nat) : Prop where
  self : st'.get d = some ⟨D.name, true, cs.length, D.inode, D.parent, cs⟩
  old : ∀ {q E}, q ≠ d → st.get q = some E → st'.get q = some E
  new : ∀ {c}, c ∈ cs → st.next ≤ c ∧ ∃ name p, st'.get c = some ⟨name, false, 0, p, d, []⟩
  only : ∀ {q E}, st'.get q = some E → q = d ∨ q ≠ d ∧ st.get q = some E ∨ q ∈ cs
  nodup : cs.Nodup

section Load

variable {st st' : Store Dentry} {root d q : Nat} {D E : Dentry} {cs : List Nat}

theorem Loads.cases (h : Loads st st' d D cs) (hq : st'.get q = some E) :
    (q = d ∧ E = ⟨D.name, true, cs.length, D.inode, D.parent, cs⟩)
    ∨ (q ≠ d ∧ st.get q = some E)
    ∨ (q ∈ cs ∧ st.next ≤ q ∧ ∃ name p, E = ⟨name, false, 0, p, d, []⟩) := by
  rcases h.only hq with rfl | hold | hcs
  · rw [h.self] at hq
    exact .inl ⟨rfl, (Option.some.inj hq).symm⟩
  · exact .inr (.inl hold)
  · obtain ⟨hle, name, p, hget⟩ := h.new hcs
    rw [hget] at hq
    exact .inr (.inr ⟨hcs, hle, name, p, (Option.some.inj hq).symm⟩)

theorem Linked.load (h : Linked st root) (hd : st.get d = some D) (hl : D.loaded = false)
    (hL : Loads st st' d D cs) : Linked st' root := by
  obtain ⟨R, hR, hself⟩ := h.top
  have hlt := Store.lt_next hd
  refine ⟨?_, fun {q E} hq hne => ?_, fun {q E c} hq hc => ?_, fun {q E} hq => ?_, fun {q E} hq => ?_,
    fun {q E} hq hle => ?_⟩
  · by_cases hroot : root = d
    · rw [hroot, hd] at hR
      cases hR
      refine ⟨⟨D.name, true, cs.length, D.inode, D.parent, cs⟩, ?_, hself⟩
      rw [hroot]
      exact hL.self
    · exact ⟨_, hL.old hroot hR, hself⟩
  · rcases hL.cases hq with ⟨rfl, rfl⟩ | ⟨hqd, hE⟩ | ⟨hcs, hle, name, p, rfl⟩
    · obtain ⟨hlt, P, hP, hmem⟩ := h.up hd hne
      exact ⟨hlt, P, hL.old (Nat.ne_of_lt hlt) hP, hmem⟩
    · obtain ⟨hlt, P, hP, hmem⟩ := h.up hE hne
      refine ⟨hlt, P, hL.old ?_ hP, hmem⟩
      -- `d` had no children yet
      intro hpd
      rw [hpd, hd] at hP
      cases hP
      rw [h.unloaded hd hl] at hmem
      cases hmem
    · exact ⟨Nat.lt_of_lt_of_le hlt hle, _, hL.self, hcs⟩
  · rcases hL.cases hq with ⟨rfl, rfl⟩ | ⟨hqd, hE⟩ | ⟨hcs, _, name, p, rfl⟩
    · obtain ⟨hle, name, p, hget⟩ := hL.new hc
      have := Store.lt_next hR
      exact ⟨by omega, _, hget, rfl⟩
    · obtain ⟨hne, C, hC, hpar⟩ := h.down hE hc
      refine ⟨hne, ?_⟩
      by_cases hcd : c = d
      · subst hcd
        rw [hd] at hC
        cases hC
        exact ⟨_, hL.self, hpar⟩
      · exact ⟨C, hL.old hcd hC, hpar⟩
    · cases hc
  · rcases hL.cases hq with ⟨_, rfl⟩ | ⟨_, hE⟩ | ⟨_, _, name, p, rfl⟩
    · exact hL.nodup
    · exact h.nodup hE
    · exact List.nodup_nil
  · rcases hL.cases hq with ⟨_, rfl⟩ | ⟨_, hE⟩ | ⟨_, _, name, p, rfl⟩
    · rfl
    · exact h.count hE
    · rfl
  · rcases hL.cases hq with ⟨_, rfl⟩ | ⟨_, hE⟩ | ⟨_, _, name, p, rfl⟩
    · cases hle
    · exact h.unloaded hE hle
    · rfl

namespace Fs

variable {s s' : Fs} {n : Nat}

theorem Extends.key (h : s.Extends s') (hc : s.Coherent) (hd : s.dentries.get d = some D) :
    s'.key d = s.key d := by
  obtain ⟨m, hm⟩ := hc.object hd
  obtain ⟨D', hd', hname, hino, _, _⟩ := h.old hd
  rw [key_of_get hd hm, key_of_get hd' (by rw [hino]; exact h.index hm), hname]

/-- The children of a dentry are alive. -/
theorem Coherent.child_alive (hc : s.Coherent) (hd : s.dentries.get d = some D) {c : Nat}
    (h : c ∈ D.children) : ∃ C, s.dentries.get c = some C :=
  let ⟨_, C, hC, _⟩ := hc.links.down hd h
  ⟨C, hC⟩

theorem Extends.children (h : s.Extends s') (hc : s.Coherent) (hd : s.dentries.get d = some D) :
    D.children.map s'.key = D.children.map s.key :=
  List.map_congr_left fun _ hmem =>
    let ⟨_, hC⟩ := hc.child_alive hd hmem
    h.key hc hC

theorem extends_of_loads (hL : Loads s.dentries s'.dentries d D cs) (hd : s.dentries.get d = some D)
    (hl : D.loaded = false) (hsb : s'.vol.sb = s.vol.sb) (hdisk : s'.vol.disk = s.vol.disk)
    (hroot : s'.root = s.root)
    (hidx : ∀ {q m}, s.vol.indexOf q = some m → s'.vol.indexOf q = some m) : s.Extends s' := by
  refine ⟨hsb, hdisk, hroot, hidx, fun {q E} hE => ?_⟩
  by_cases hqd : q = d
  · subst hqd
    rw [hd] at hE
    cases hE
    exact ⟨_, hL.self, rfl, rfl, rfl, fun h => by rw [hl] at h; cases h⟩
  · exact ⟨E, hL.old hqd hE, rfl, rfl, rfl, fun _ => rfl⟩

/-- **A dentry that is loaded fits in.** -/
theorem Coherent.load (hc : s.Coherent) (hd : s.dentries.get d = some D) (hl : D.loaded = false)
    (hn : s.vol.indexOf D.inode = some n) (hready : s'.vol.Ready) (hx : s.Extends s')
    (hL : Loads s.dentries s'.dentries d D cs)
    (hobj : ∀ {c C}, c ∈ cs → s'.dentries.get c = some C → ∃ m, s'.vol.indexOf C.inode = some m)
    (hkeys : (cs.map s'.key).Perm (s.vol.entries n)) : s'.Coherent := by
  refine ⟨hready, by rw [hx.tree]; exact hc.tree, by rw [hx.root]; exact hc.links.load hd hl hL,
    fun {R} hR => ?_, (sameFile_of_disk hx.sb hx.disk 1).isDirectory.trans hc.rootDir, fun {q E} hq => ?_,
    fun {q E m} hq hle hm => ?_⟩
  · obtain ⟨R₀, hR₀, _⟩ := hc.links.top
    obtain ⟨R', hR', _, hino, _, _⟩ := hx.old hR₀
    rw [hx.root, hR'] at hR
    cases hR
    rw [hino]
    exact hx.index (hc.root hR₀)
  · rcases hL.cases hq with ⟨_, rfl⟩ | ⟨_, hE⟩ | ⟨hcs, _⟩
    · exact ⟨n, hx.index hn⟩
    · obtain ⟨m, hm⟩ := hc.object hE
      exact ⟨m, hx.index hm⟩
    · exact hobj hcs hq
  · rw [hx.entries]
    rcases hL.cases hq with ⟨_, rfl⟩ | ⟨_, hE⟩ | ⟨_, _, name, p, rfl⟩
    · rw [show m = n from Option.some.inj (hm.symm.trans (hx.index hn))]
      exact hkeys
    · obtain ⟨m', hm'⟩ := hc.object hE
      rw [show m = m' from Option.some.inj (hm.symm.trans (hx.index hm')), hx.children hc hE]
      exact hc.loaded hE hle hm'
    · cases hle

/-- What `read_children` comes to. -/
structure Read (s s' : Fs) (d : Nat) : Prop where
  coherent : s'.Coherent
  ext : s.Extends s'
  done : ∃ D', s'.dentries.get d = some D' ∧ D'.loaded = true
  plain : s.LoadedPlain → s.PlainAt d → s'.LoadedPlain

theorem plain_of_loads (hL : Loads s.dentries s'.dentries d D cs) (hd : s.dentries.get d = some D)
    (hroot : s'.root = s.root) (hs : s.LoadedPlain) (hplain : s.PlainAt d) : s'.LoadedPlain := by
  intro q E hq hle
  rw [hroot]
  rcases hL.cases hq with ⟨rfl, rfl⟩ | ⟨_, hE⟩ | ⟨_, _, name, p, rfl⟩
  · obtain ⟨D', hd', h⟩ := hplain
    rw [hd] at hd'
    cases hd'
    exact h
  · exact hs hE hle
  · cases hle

/-- A file has nothing to load. -/
theorem read_file (hc : s.Coherent) (hd : s.dentries.get d = some D) (hl : D.loaded = false)
    (hn : s.vol.indexOf D.inode = some n) (hfile : s.vol.isDirectory n = false) :
    Read s (s.update d fun D => { D with loaded := true }) d := by
  have hnil := hc.links.unloaded hd hl
  have hcount := hc.links.count hd
  rw [hnil] at hcount
  have hL : Loads s.dentries (s.update d fun D => { D with loaded := true }).dentries d D [] := by
    refine ⟨?_, fun hne hE => (get_update_ne hne).trans hE, fun h => absurd h (by simp), fun {q E} hq => ?_,
      List.nodup_nil⟩
    · rw [get_update_self hd, hnil, hcount]
    · by_cases hqd : q = d
      · exact .inl hqd
      · rw [get_update_ne hqd] at hq
        exact .inr (.inl ⟨hqd, hq⟩)
  have hx := extends_of_loads hL hd hl rfl rfl rfl id
  refine ⟨hc.load hd hl hn hc.ready hx hL (fun h => absurd h (by simp)) ?_, hx, ⟨_, hL.self, rfl⟩,
    plain_of_loads hL hd rfl⟩
  unfold Volume.entries
  rw [hfile]
  exact .refl _

/-- A directory gets its children. -/
theorem read_directory (hc : s.Coherent) (hd : s.dentries.get d = some D) (hl : D.loaded = false)
    (hn : s.vol.indexOf D.inode = some n) (hdir : s.vol.isDirectory n = true)
    (hf : Filled s d cs s' (s.vol.slots n)) :
    Read s (s'.update d fun D =>
      { D with
        nentries := (D.nentries + cs.length) % 2 ^ 32
        children := cs ++ D.children
        loaded := true }) d := by
  have hnil := hc.links.unloaded hd hl
  have hcount := hc.links.count hd
  rw [hnil] at hcount
  have hlt := Store.lt_next hd
  have hentries : s.vol.entries n = (s.vol.slots n).filter (·.1 ≠ 0) := if_pos hdir
  have hkeys : (cs.map s'.key).Perm (s.vol.entries n) := by
    rw [hf.keys, hentries]
    exact List.reverse_perm _
  have hlen : cs.length < 2 ^ 32 := by
    have := hkeys.length_eq
    rw [List.length_map, hentries] at this
    have := List.length_filter_le (fun e : Nat × CString => decide (e.1 ≠ 0)) (s.vol.slots n)
    have := slots_small (hc.ready.dirs (hc.ready.allocated hn) hdir)
    omega
  have hL : Loads s.dentries (s'.update d fun D =>
      { D with
        nentries := (D.nentries + cs.length) % 2 ^ 32
        children := cs ++ D.children
        loaded := true }).dentries d D cs := by
    refine ⟨?_, fun hne hE => ?_, fun {c} hcs => ?_, fun {q E} hq => ?_, hf.nodup⟩
    · rw [get_update_self ((hf.old hlt).trans hd), hnil, hcount, List.append_nil, List.length_nil,
        Nat.zero_add, Nat.mod_eq_of_lt hlen]
    · rw [get_update_ne hne, hf.old (Store.lt_next hE), hE]
    · obtain ⟨hle, name, p, m, hget, _⟩ := hf.new hcs
      exact ⟨hle, name, p, by rw [get_update_ne (by omega), hget]⟩
    · by_cases hqd : q = d
      · exact .inl hqd
      · rw [get_update_ne hqd] at hq
        rcases Nat.lt_or_ge q s.dentries.next with hlt | hge
        · rw [hf.old hlt] at hq
          exact .inr (.inl ⟨hqd, hq⟩)
        · exact .inr (.inr (hf.mem hge (by rw [hq]; rfl)))
  have hx := extends_of_loads hL hd hl hf.sb hf.disk hf.root hf.index
  refine ⟨hc.load hd hl hn hf.ready hx hL (fun {c C} hcs hC => ?_) ?_, hx, ⟨_, hL.self, rfl⟩,
    plain_of_loads hL hd hf.root⟩
  · obtain ⟨hle, name, p, m, hget, hm⟩ := hf.new hcs
    rw [get_update_ne (by omega), hget] at hC
    cases hC
    exact ⟨m, hm⟩
  · refine (List.Perm.of_eq ?_).trans hkeys
    exact List.map_congr_left fun c _ => key_update (fun _ => by rfl) (fun _ => by rfl) c

/-- **`read_children`** keeps the cache coherent. -/
theorem readChildren_read (hc : s.Coherent) (hd : s.dentries.get d = some D) :
    ∃ s', s.readChildren d = .ok s' ∧ Read s s' d := by
  unfold readChildren
  rw [hd]
  simp only []
  cases hl : D.loaded with
  | true => exact ⟨s, rfl, hc, .refl s, ⟨D, hd, hl⟩, fun h _ => h⟩
  | false =>
    obtain ⟨n, hn⟩ := hc.object hd
    obtain ⟨inode, hget, hidx⟩ := indexOf_eq_some.mp hn
    have hmode : isDir inode.mode = s.vol.isDirectory n := by
      rw [hc.ready.modes hget, hidx]
      rfl
    rw [hget]
    simp only []
    rw [hmode]
    cases hdir : s.vol.isDirectory n with
    | false => exact ⟨_, rfl, read_file hc hd hl hn hdir⟩
    | true =>
      have hnamed := hc.named (hc.ready.allocated hn) hdir
      have hsmall := hnamed.ok.small
      have hmax : maxSize = 268431360 := rfl
      obtain ⟨cs, s', hfold, hf⟩ := readSlots_filled hc.ready d [] hnamed.used
        fun e he => slots_length_le he
      rw [readBlocks_eq d fileRounds hc.ready hn hnamed (Nat.zero_mod _) (Nat.zero_le _)
        (by unfold blockSize fileRounds; omega), Nat.zero_div, List.drop_zero, hfold, List.append_nil]
      exact ⟨_, rfl, read_directory hc hd hl hn hdir hf⟩

end Fs

end Load

/-! ## Looking up a path -/

namespace Fs

variable {s s' : Fs} {d n : Nat} {D : Dentry} {name : CString} {c : Nat} {r : Option Nat} {xs : List CString}

theorem sameName_iff {a b : CString} (ha : a.length ≤ nameMax) (hb : b.length ≤ nameMax) :
    sameName a b = true ↔ a = b := by
  unfold sameName
  rw [List.take_of_length_le ha, List.take_of_length_le hb, beq_iff_eq]

/-- A child of a loaded dentry and the entry it was made for. -/
theorem Coherent.child (hc : s.Coherent) (hd : s.dentries.get d = some D) (hl : D.loaded = true)
    (hn : s.vol.indexOf D.inode = some n) (h : c ∈ D.children) :
    ∃ C m, s.dentries.get c = some C ∧ s.vol.indexOf C.inode = some m
      ∧ (m, C.name) ∈ s.vol.entries n := by
  obtain ⟨C, hC⟩ := hc.child_alive hd h
  obtain ⟨m, hm⟩ := hc.object hC
  refine ⟨C, m, hC, hm, ?_⟩
  rw [← key_of_get hC hm]
  exact (hc.loaded hd hl hn).mem_iff.mp (List.mem_map_of_mem h)

/-- **The child with a name is the entry with that name.** -/
theorem Coherent.findChild (hc : s.Coherent) (hd : s.dentries.get d = some D) (hl : D.loaded = true)
    (hn : s.vol.indexOf D.inode = some n) (hlen : name.length ≤ nameMax) :
    (∃ c C m, s.findChild d name = some c ∧ c ∈ D.children ∧ s.dentries.get c = some C
      ∧ C.name = name ∧ s.vol.indexOf C.inode = some m ∧ (m, name) ∈ s.vol.entries n)
    ∨ (s.findChild d name = none ∧ ∀ m, (m, name) ∉ s.vol.entries n) := by
  have htest : ∀ {c C m}, s.dentries.get c = some C → (m, C.name) ∈ s.vol.entries n →
      (((s.dentries.get c).any fun C => sameName C.name name) = true ↔ C.name = name) := by
    intro c C m hC hm
    rw [hC]
    exact sameName_iff (entries_name hm).2.1 hlen
  unfold Fs.findChild
  rw [hd, Option.bind_some]
  cases hf : D.children.find? fun c => (s.dentries.get c).any fun C => sameName C.name name with
  | some c =>
    have hmem := List.mem_of_find?_eq_some hf
    obtain ⟨C, m, hC, hm, hentry⟩ := hc.child hd hl hn hmem
    have htrue := List.find?_some hf
    have hname := (htest hC hentry).mp htrue
    exact .inl ⟨c, C, m, rfl, hmem, hC, hname, hm, hname ▸ hentry⟩
  | none =>
    refine .inr ⟨rfl, fun m hm => ?_⟩
    obtain ⟨c, hmem, hkey⟩ := List.mem_map.mp ((hc.loaded hd hl hn).mem_iff.mpr hm)
    obtain ⟨C, m', hC, hm', hentry⟩ := hc.child hd hl hn hmem
    rw [key_of_get hC hm'] at hkey
    exact List.find?_eq_none.mp hf c hmem ((htest hC hentry).mpr (congrArg Prod.snd hkey))

def IsLoaded (s : Fs) (d : Nat) : Prop := ∃ D, s.dentries.get d = some D ∧ D.loaded = true

/-- From `d` the names lead to `e` in the cache, over dentries that have been loaded. -/
def Walks (s : Fs) : Nat → List CString → Nat → Prop
  | d, [], e => d = e ∧ s.IsLoaded d
  | d, x :: xs, e => s.IsLoaded d ∧ x.length ≤ nameMax ∧ ∃ c, s.findChild d x = some c ∧ s.Walks c xs e

theorem Extends.isLoaded (hx : s.Extends s') (h : s.IsLoaded d) : s'.IsLoaded d := by
  obtain ⟨D, hD, hl⟩ := h
  obtain ⟨D', hD', _, _, _, hsame⟩ := hx.old hD
  exact ⟨D', hD', by rw [hsame hl]; exact hl⟩

/-- A dentry finds its children by their names. -/
theorem findChild_congr {D' : Dentry} (hd : s.dentries.get d = some D) (hd' : s'.dentries.get d = some D')
    (hch : D'.children = D.children)
    (hname : ∀ c ∈ D.children, (s'.dentries.get c).map Dentry.name = (s.dentries.get c).map Dentry.name)
    (x : CString) : s'.findChild d x = s.findChild d x := by
  have hany : ∀ o : Option Dentry, (o.any fun C => sameName C.name x)
      = ((o.map Dentry.name).any fun y => sameName y x) := by
    rintro (_ | C) <;> rfl
  unfold Fs.findChild
  rw [hd, hd', Option.bind_some, hch]
  refine List.find?_congr fun c hc => ?_
  rw [hany, hany, hname c hc]

theorem Extends.findChild (hx : s.Extends s') (hc : s.Coherent) (hd : s.IsLoaded d) (x : CString) :
    s'.findChild d x = s.findChild d x := by
  obtain ⟨D, hD, hl⟩ := hd
  obtain ⟨D', hD', _, _, _, hsame⟩ := hx.old hD
  refine findChild_congr hD hD' (by rw [hsame hl]) (fun c hmem => ?_) x
  obtain ⟨C, hC⟩ := hc.child_alive hD hmem
  obtain ⟨C', hC', hname, _⟩ := hx.old hC
  rw [hC, hC', Option.map_some, Option.map_some, hname]

/-- What a lookup of the names `xs` from the dentry `d` of inode `n` comes to. -/
structure Looked (s s' : Fs) (d n : Nat) (xs : List CString) (r : Option Nat) : Prop where
  coherent : s'.Coherent
  ext : s.Extends s'
  leads : ∀ m, (∃ e E, r = some e ∧ s'.dentries.get e = some E ∧ s'.vol.indexOf E.inode = some m)
    ↔ s.vol.tree.Leads n xs m
  found : ∀ {e}, r = some e → ∃ E, s'.dentries.get e = some E ∧ E.loaded = true
    ∧ (xs = [] ∧ e = d ∨ e ≠ s'.root ∧ E.name ∈ xs)
  walks : ∀ {e}, r = some e → s'.Walks d xs e
  plain : s.LoadedPlain → s.PlainAt d → (∀ x ∈ xs, signs.Plain x) → s'.LoadedPlain

/-- The names between the slashes. -/
def nonempty (names : List CString) : List CString := names.filter (· ≠ [])

theorem nonempty_cons {x : CString} (hx : x ≠ []) (names : List CString) :
    nonempty (x :: names) = x :: nonempty names :=
  List.filter_cons_of_pos (by simpa using hx)

/-- The dentry is loaded before its children are looked at. -/
theorem Looked.after {s'' : Fs} (hr : Read s s' d)
    (h : Looked s' s'' d n xs r) : Looked s s'' d n xs r := by
  refine ⟨h.coherent, hr.ext.trans h.ext, fun m => ?_, h.found, h.walks, fun hs hd hxs => ?_⟩
  · rw [← hr.ext.tree]
    exact h.leads m
  · exact h.plain (hr.plain hs hd) (hr.ext.plainAt hd) hxs

theorem Read.self (hr : Read s s' d) (hd : s.dentries.get d = some D) :
    ∃ D', s'.dentries.get d = some D' ∧ D'.loaded = true ∧ D'.name = D.name ∧ D'.inode = D.inode
      ∧ D'.parent = D.parent := by
  obtain ⟨D', hd', hload⟩ := hr.done
  obtain ⟨D'', hd'', hname, hino, hpar, _⟩ := hr.ext.old hd
  rw [hd'] at hd''
  cases hd''
  exact ⟨D', hd', hload, hname, hino, hpar⟩

/-- The names are used up. -/
theorem Looked.here (hc : s.Coherent) (hd : s.dentries.get d = some D) (hl : D.loaded = true)
    (hn : s.vol.indexOf D.inode = some n) : Looked s s d n [] (some d) := by
  refine ⟨hc, .refl s, fun m => ⟨?_, ?_⟩, fun he => ?_, fun he => ⟨Option.some.inj he, D, hd, hl⟩,
    fun hs _ _ => hs⟩
  · rintro ⟨e, E, he, hE, hm⟩
    cases he
    rw [hd] at hE
    cases hE
    exact Option.some.inj (hn.symm.trans hm)
  · rintro rfl
    exact ⟨d, D, rfl, hd, hn⟩
  · cases he
    exact ⟨D, hd, hl, .inl ⟨rfl, rfl⟩⟩

/-- There is no such entry. -/
theorem Looked.missing (hc : s.Coherent) (h : ∀ m, (m, name) ∉ s.vol.entries n) :
    Looked s s d n (name :: xs) none := by
  refine ⟨hc, .refl s, fun m => ⟨?_, ?_⟩, fun he => ?_, fun he => ?_, fun hs _ _ => hs⟩
  · rintro ⟨e, E, he, _⟩
    cases he
  · rintro ⟨k, hk, _⟩
    exact absurd hk (h k)
  · cases he
  · cases he

/-- The lookup goes on from a child. -/
theorem Looked.child {m : Nat} {C : Dentry}
    (hc : s.Coherent) (hn : s.vol.tree.used n) (hd : s.IsLoaded d) (hlen : name.length ≤ nameMax)
    (hfind : s.findChild d name = some c) (hC : s.dentries.get c = some C) (hroot : c ≠ s.root)
    (hname : C.name = name) (hm : (m, name) ∈ s.vol.entries n) (h : Looked s s' c m xs r) :
    Looked s s' d n (name :: xs) r := by
  refine ⟨h.coherent, h.ext, fun k => (h.leads k).trans ⟨fun hk => ⟨m, hm, hk⟩, ?_⟩, fun {e} he => ?_,
    fun he => ⟨h.ext.isLoaded hd, hlen, c, (h.ext.findChild hc hd name).trans hfind, h.walks he⟩,
    fun hs _ hxs => ?_⟩
  · rintro ⟨m', hm', hk⟩
    rwa [hc.tree.unique hn hm' hm] at hk
  · obtain ⟨E, hE, hload, hlast⟩ := h.found he
    refine ⟨E, hE, hload, .inr ?_⟩
    rcases hlast with ⟨_, rfl⟩ | ⟨hne, hmem⟩
    · obtain ⟨C', hC', hname', _⟩ := h.ext.old hC
      rw [hC'] at hE
      cases hE
      exact ⟨by rw [h.ext.root]; exact hroot, by rw [hname', hname]; exact List.mem_cons_self ..⟩
    · exact ⟨hne, List.mem_cons_of_mem _ hmem⟩
  · exact h.plain hs ⟨C, hC, .inr (by rw [hname]; exact hxs name (List.mem_cons_self ..))⟩
      fun x hx => hxs x (List.mem_cons_of_mem _ hx)

/-- **The loop of `lookup_dentry` finds what the names lead to on disk.** -/
theorem lookupLoop_looked (names : List CString) (hc : s.Coherent) (hd : s.dentries.get d = some D)
    (hn : s.vol.indexOf D.inode = some n) :
    ∃ r s', lookupLoop names s d = .ok (r, s') ∧ Looked s s' d n (nonempty names) r := by
  induction names generalizing s d n D with
  | nil =>
    obtain ⟨s', hread, hr⟩ := readChildren_read hc hd
    obtain ⟨D', hd', hload, _, hino, _⟩ := hr.self hd
    refine ⟨some d, s', by rw [lookupLoop, hread]; rfl, .after hr ?_⟩
    exact .here hr.coherent hd' hload (by rw [hino]; exact hr.ext.index hn)
  | cons name names ih =>
    obtain ⟨s', hread, hr⟩ := readChildren_read hc hd
    obtain ⟨D', hd', hload, _, hino, _⟩ := hr.self hd
    have hn' : s'.vol.indexOf D'.inode = some n := by
      rw [hino]
      exact hr.ext.index hn
    rw [lookupLoop, hread]
    by_cases hempty : name = []
    · subst hempty
      obtain ⟨r, s'', hrun, hl⟩ := ih hr.coherent hd' hn'
      exact ⟨r, s'', hrun, hl.after hr⟩
    · rw [nonempty_cons hempty]
      show ∃ r s'', (if name = [] then _ else _) = _ ∧ _
      rw [if_neg hempty]
      by_cases hlen : name.length > nameMax
      · -- no entry has such a name
        refine ⟨none, s', if_pos hlen, .after hr (.missing hr.coherent fun m hm => ?_)⟩
        exact absurd (entries_name hm).2.1 (Nat.not_le.mpr hlen)
      · rw [if_neg hlen]
        rcases hr.coherent.findChild hd' hload hn' (Nat.not_lt.mp hlen) with
          ⟨c, C, m, hfind, hmem, hC, hname, hm, hentry⟩ | ⟨hfind, hno⟩
        · obtain ⟨r, s'', hrun, hl⟩ := ih hr.coherent hC hm
          refine ⟨r, s'', by rw [hfind]; exact hrun, .after hr ?_⟩
          exact hl.child hr.coherent (hr.coherent.ready.allocated hn') ⟨D', hd', hload⟩ (Nat.not_lt.mp hlen)
            hfind hC (hr.coherent.links.down hd' hmem).1 hname hentry
        · exact ⟨none, s', by rw [hfind], .after hr (.missing hr.coherent hno)⟩

end Fs

end Cyanurus
