import Cyanurus.Fs.Dentry
import Cyanurus.Fs.Frame
import Cyanurus.Fs.Write
import Mathlib.Data.List.TakeWhile

/-!
# Directories on disk

A directory is a file of records of 64 bytes; a record whose inode number is 0 is not in use.
`v.slots n` are the records of inode `n` and `v.entries n` those in use. The operations of the
inode layer are described by what they do to these lists: appending a record, clearing one,
creating and destroying an inode. `Volume.Ready` is what they need and keep: a volume in order
whose inodes in memory have the mode that is on disk, and directories of whole records all of
whose blocks are mapped, the one behind the last record included.
-/

namespace Cyanurus

variable {v w : Volume} {n m i k p : Nat} {inode : Inode}

/-! ## Records -/

/-- The entry at `a`. -/
def dirent (b : Bytes) (a : Nat) : Nat × CString := (dIno b a, dName b a)

theorem dirent_congr {b b' : Bytes} {a a' : Nat} (h : ∀ x, x < direntSize → b' (a' + x) = b (a + x)) :
    dirent b' a' = dirent b a := by
  unfold direntSize at h
  refine Prod.ext (Bytes.load_shift fun x hx => h x (by omega)) ?_
  refine congrArg (List.takeWhile (· != 0)) (List.map_congr_left fun x hx => ?_)
  have hlt : x < 60 := List.mem_range.mp hx
  have := h (4 + x) (by omega)
  rwa [← Nat.add_assoc, ← Nat.add_assoc] at this

theorem dName_length (b : Bytes) (a : Nat) : (dName b a).length ≤ nameMax := by
  refine Nat.le_trans (List.takeWhile_sublist _).length_le ?_
  rw [List.length_map, List.length_range]

theorem dName_ne_zero (b : Bytes) (a : Nat) : 0 ∉ dName b a := by
  intro h
  have := List.mem_takeWhile_imp h
  simp at this

/-- The entry `write_child` writes. -/
theorem dirent_direntBytes {ino : Nat} {name : CString} (hino : ino < 2 ^ 32)
    (hlen : name.length ≤ nameMax) (h0 : 0 ∉ name) : dirent (direntBytes ino name) 0 = (ino, name) := by
  refine Prod.ext ?_ ?_
  · -- the four bytes are those a store would have put there
    show Bytes.load _ 4 0 = ino
    have hstore : Bytes.Agree (Bytes.store (fun _ => 0) 4 0 ino) (direntBytes ino name) 0 4 := by
      intro x _ hx
      unfold direntBytes Bytes.store
      rw [if_pos (by omega), if_pos ⟨Nat.zero_le _, by omega⟩, Nat.sub_zero]
    rw [Bytes.load_congr hstore, Bytes.load_store_self]
    exact Nat.mod_eq_of_lt hino
  · show ((List.range nameMax).map fun x => direntBytes ino name (0 + 4 + x)).takeWhile (· != 0) = name
    have hmap : ((List.range nameMax).map fun x => direntBytes ino name (0 + 4 + x))
        = name ++ List.replicate (nameMax - name.length) 0 := by
      refine List.ext_getElem? fun x => ?_
      rw [List.getElem?_map, List.getElem?_append, List.getElem?_replicate]
      rcases Nat.lt_or_ge x nameMax with hx | hx
      · rw [List.getElem?_range hx, Option.map_some]
        unfold direntBytes
        rw [if_neg (by omega), show 0 + 4 + x - 4 = x by omega]
        split
        · rename_i hlt
          rw [List.getElem?_eq_getElem hlt]
          rfl
        · rw [List.getElem?_eq_none (by omega), if_pos (by omega)]
          rfl
      · rw [List.getElem?_eq_none (by rw [List.length_range]; exact hx), if_neg (by omega),
          if_neg (by omega)]
        rfl
    rw [hmap, List.takeWhile_append_of_pos fun x hx => ?_]
    · cases nameMax - name.length with
      | zero => simp
      | succ j => simp [List.replicate_succ]
    · simp only [bne_iff_ne]
      rintro rfl
      exact h0 hx

/-! ## The records of a directory -/

/-- Is inode `n` a directory on disk? -/
def Volume.isDirectory (v : Volume) (n : Nat) : Bool := isDir (iMode (readInode v.sb v.disk n))

/-- Record `i` of inode `n`. -/
def Volume.slot (v : Volume) (n i : Nat) : Nat × CString := dirent (v.readAt n) (i * direntSize)

def Volume.slots (v : Volume) (n : Nat) : List (Nat × CString) :=
  (List.range (v.sizeOf n / direntSize)).map (v.slot n)

/-- **The entries of a directory**: inode numbers with names. Other files have none. -/
def Volume.entries (v : Volume) (n : Nat) : List (Nat × CString) :=
  if v.isDirectory n then (v.slots n).filter (·.1 ≠ 0) else []

/-- A directory that `read_children`, `write_child` and `remove_child` can work on. -/
structure Volume.DirOk (v : Volume) (n : Nat) : Prop where
  whole : v.sizeOf n % direntSize = 0
  small : v.sizeOf n < maxSize
  mapped : ∀ b, b ≤ v.sizeOf n / blockSize → v.Mapped n b

theorem maxSize_offset : maxSize + blockSize = maxOffset := rfl

theorem block_of_size (h : i < maxSize) : i / blockSize < 2 ^ 16 := block_lt (by
  have := maxSize_offset
  omega)

section Slots

theorem slots_length (v : Volume) (n : Nat) : (v.slots n).length = v.sizeOf n / direntSize := by
  unfold Volume.slots
  rw [List.length_map, List.length_range]

theorem getElem?_slots (h : i < v.sizeOf n / direntSize) : (v.slots n)[i]? = some (v.slot n i) := by
  unfold Volume.slots
  rw [List.getElem?_map, List.getElem?_range h]
  rfl

theorem slot_name (v : Volume) (n i : Nat) :
    (v.slot n i).2.length ≤ nameMax ∧ 0 ∉ (v.slot n i).2 :=
  ⟨dName_length _ _, dName_ne_zero _ _⟩

/-- An entry is a record in use. -/
theorem mem_entries {e : Nat × CString} : e ∈ v.entries n ↔
    v.isDirectory n = true ∧ e.1 ≠ 0 ∧ ∃ i, i < v.sizeOf n / direntSize ∧ v.slot n i = e := by
  unfold Volume.entries
  split
  · rename_i hd
    rw [List.mem_filter, decide_eq_true_iff]
    unfold Volume.slots
    rw [List.mem_map]
    simp only [List.mem_range, hd, true_and]
    exact and_comm
  · rename_i hd
    simp [hd]

theorem entries_name {e : Nat × CString} (h : e ∈ v.entries n) :
    e.1 ≠ 0 ∧ e.2.length ≤ nameMax ∧ 0 ∉ e.2 := by
  obtain ⟨_, h0, i, _, rfl⟩ := mem_entries.mp h
  exact ⟨h0, slot_name v n i⟩

/-- A file that stays as it is keeps its records. -/
theorem Volume.SameFile.slots (h : v.SameFile w n) (hsmall : v.sizeOf n < maxSize) :
    w.slots n = v.slots n := by
  have hsize : w.sizeOf n = v.sizeOf n := h.size
  unfold Volume.slots
  rw [hsize]
  refine List.map_congr_left fun i hi => dirent_congr fun x hx => ?_
  have hi' := List.mem_range.mp hi
  have := maxSize_offset
  unfold Volume.readAt
  rw [h.bytes]
  unfold direntSize at *
  omega

theorem Volume.SameFile.isDirectory (h : v.SameFile w n) : w.isDirectory n = v.isDirectory n :=
  congrArg isDir h.mode

theorem Volume.SameFile.entries (h : v.SameFile w n)
    (hsmall : v.isDirectory n = true → v.sizeOf n < maxSize) : w.entries n = v.entries n := by
  unfold Volume.entries
  rw [h.isDirectory]
  split
  · rename_i hd
    rw [h.slots (hsmall hd)]
  · rfl

theorem Volume.SameFile.dirOk (h : v.SameFile w n) (hd : v.DirOk n) : w.DirOk n := by
  have hsize : w.sizeOf n = v.sizeOf n := h.size
  refine ⟨by rw [hsize]; exact hd.whole, by rw [hsize]; exact hd.small, fun b hb => ?_⟩
  rw [hsize] at hb
  exact (h.mapped (Nat.lt_of_le_of_lt hb (block_of_size hd.small))).mpr (hd.mapped b hb)

/-! ## Writing a record -/

theorem fileAt_mapped (h : v.Mapped n (i / blockSize)) : ∃ c, v.fileAt n i = some c :=
  ⟨_, byteAt_eq_some.mpr ⟨h, rfl⟩⟩

section Written

variable {src : Nat → UInt8} {start : Nat} (hv : v.Inv) (hp : v.inodes.get p = some inode)

include hv hp

theorem Written.sizeOf (hw : Written v w p inode start k src) :
    w.sizeOf inode.index = max (v.sizeOf inode.index) (start + k) := by
  have hsize : inode.size = v.sizeOf inode.index := (hv.live hp).2
  rw [← hsize]
  exact (hw.keeps.inv.live hw.get).2.symm

/-- A record none of whose bytes was written. -/
theorem Written.slot_other (hd : v.DirOk inode.index) (hw : Written v w p inode start k src)
    (hi : i < v.sizeOf inode.index / direntSize)
    (hout : ∀ x, x < direntSize → ¬ (start ≤ i * direntSize + x ∧ i * direntSize + x < start + k)) :
    w.slot inode.index i = v.slot inode.index i := by
  refine dirent_congr fun x hx => ?_
  -- the byte is in a mapped block
  have hy : i * direntSize + x < v.sizeOf inode.index := by
    unfold direntSize at *
    omega
  obtain ⟨c, hc⟩ := fileAt_mapped (hd.mapped ((i * direntSize + x) / blockSize)
    (Nat.div_le_div_right (Nat.le_of_lt hy)))
  have hsmall := hd.small
  have hmax := maxSize_offset
  unfold Volume.readAt
  rw [hw.keeps.bytes (hv.live hp).1 (by omega) (fun _ => hout x hx) hc, hc]

/-- The records after one of them was written, inside the directory or at its end. -/
theorem Written.slot (hd : v.DirOk inode.index)
    (hw : Written v w p inode (i * direntSize) direntSize src) :
    w.slot inode.index i = dirent src 0
    ∧ ∀ j, j ≠ i → j < v.sizeOf inode.index / direntSize →
        w.slot inode.index j = v.slot inode.index j := by
  refine ⟨dirent_congr fun x hx => ?_, fun j hne hj => hw.slot_other hv hp hd hj fun x hx => ?_⟩
  · unfold Volume.readAt
    rw [hw.data x hx, Nat.zero_add]
    rfl
  · unfold direntSize at *
    omega

end Written

end Slots

/-! ## Volumes with directories -/

/-- The index of the inode in memory at `p`. -/
def Volume.indexOf (v : Volume) (p : Nat) : Option Nat := (v.inodes.get p).map Inode.index

theorem indexOf_eq_some : v.indexOf p = some n ↔ ∃ inode, v.inodes.get p = some inode ∧ inode.index = n :=
  Option.map_eq_some_iff

/-- What the operations on directories need and keep. -/
structure Volume.Ready (v : Volume) : Prop where
  inv : v.Inv
  /-- An inode in memory has the mode that is on disk. -/
  modes : ∀ {p inode}, v.inodes.get p = some inode →
    inode.mode = iMode (readInode v.sb v.disk inode.index)
  dirs : ∀ {n}, Allocated v.sb v.disk n → v.isDirectory n = true → v.DirOk n

theorem Volume.Ready.allocated (hv : v.Ready) (hp : v.indexOf p = some n) :
    Allocated v.sb v.disk n := by
  obtain ⟨inode, hget, rfl⟩ := indexOf_eq_some.mp hp
  exact (hv.inv.live hget).1

theorem Volume.Ready.entries_other (hv : v.Ready) (ho : v.Others w n) (hne : m ≠ n)
    (hm : Allocated v.sb v.disk m) : w.entries m = v.entries m :=
  (ho.sameFile hne hm).entries fun hd => (hv.dirs hm hd).small

/-- A volume in which all inodes but `n` are as they were. -/
theorem Volume.Ready.of_others (hv : v.Ready) (hw : w.Inv) (ho : v.Others w n)
    (hobj : ∀ {p inode}, w.inodes.get p = some inode → inode.index ≠ n →
      ∃ inode', v.inodes.get p = some inode' ∧ inode'.Same inode)
    (hmode : ∀ {p inode}, w.inodes.get p = some inode → inode.index = n →
      inode.mode = iMode (readInode w.sb w.disk n))
    (hdir : Allocated w.sb w.disk n → w.isDirectory n = true → w.DirOk n) : w.Ready := by
  refine ⟨hw, fun {p inode} hp => ?_, fun {m} hm hd => ?_⟩
  · by_cases hn : inode.index = n
    · rw [hn]
      exact hmode hp hn
    · obtain ⟨inode', hp', hi, hmd⟩ := hobj hp hn
      rw [hmd, hv.modes hp', hi]
      rw [hi] at hn
      rw [ho.read hn (hv.inv.live hp').1]
  · by_cases hn : m = n
    · subst hn
      exact hdir hm hd
    · have hm' := (ho.alloc hn).mp hm
      have hsame := ho.sameFile hn hm'
      rw [hsame.isDirectory] at hd
      exact hsame.dirOk (hv.dirs hm' hd)

/-- From `v` to `w` only the entries of directory `n` are changed. -/
structure Volume.Changes (v w : Volume) (n : Nat) : Prop where
  ready : w.Ready
  alloc : ∀ {m}, Allocated w.sb w.disk m ↔ Allocated v.sb v.disk m
  index : ∀ q, w.indexOf q = v.indexOf q
  isDirectory : ∀ {m}, Allocated v.sb v.disk m → w.isDirectory m = v.isDirectory m
  entries_of_ne : ∀ {m}, m ≠ n → Allocated v.sb v.disk m → w.entries m = v.entries m
  same : ∀ {m}, m ≠ n → Allocated v.sb v.disk m → v.SameFile w m

theorem Volume.Ready.edits (hv : v.Ready) (hn : Allocated v.sb v.disk n) (hw : w.Inv)
    (he : v.Edits w n) (hd : v.isDirectory n = true → w.DirOk n) : v.Changes w n := by
  have hisdir : w.isDirectory n = v.isDirectory n := congrArg isDir (he.mode hn)
  refine ⟨hv.of_others hw he.toOthers (fun hp _ => he.objects.back hp) (fun {p inode} hp hi => ?_)
    fun _ h => hd (hisdir ▸ h), fun {m} => by rw [he.allocated], fun q => ?_, fun {m} hm => ?_,
    fun hne hm => hv.entries_other he.toOthers hne hm, fun hne hm => he.toOthers.sameFile hne hm⟩
  · obtain ⟨inode', hp', hi', hm'⟩ := he.objects.back hp
    rw [hm', hv.modes hp', ← hi', hi, he.mode hn]
  · unfold Volume.indexOf
    have hrel := he.objects q
    generalize v.inodes.get q = a at hrel
    generalize w.inodes.get q = b at hrel
    cases hrel with
    | none => rfl
    | some h => exact congrArg some h.1
  · by_cases hmn : m = n
    · subst hmn
      exact hisdir
    · exact (he.toOthers.sameFile hmn hm).isDirectory

/-- There are more than `k` free zones, and bit 0 of the zone map is set as it has to be. -/
def Volume.Room (v : Volume) (k : Nat) : Prop :=
  bitAt v.disk v.sb.zmapStart 0 = true ∧ k < (freeZones v.sb v.disk).length

/-- The zones that it takes to give directory `n` another record. -/
def Volume.recordZones (v : Volume) (n : Nat) : Nat :=
  missing (v.has n) (fileSlots (v.sizeOf n + direntSize))

/-- A record takes no more than six zones. -/
theorem missing_six (hE : i * direntSize + direntSize < maxSize) (hsize : k < maxSize)
    (hcur : i * direntSize / blockSize ≤ k / blockSize)
    (hmap : ∀ b, b ≤ k / blockSize → v.Mapped n b) :
    missing (v.has n) (fileSlots (i * direntSize + direntSize)) ≤ 6 := by
  rw [← missing_fileSlots hE hsize hmap]
  refine Nat.le_trans (missing_writeSlots_le _ hE hsize hcur (.inl ⟨rfl, rfl⟩)) ?_
  unfold direntSize blockSize
  omega

/-- **A record is written**, over another one or at the end. There it takes zones when the
directory gets a new block, and when they are not there, nothing is written. -/
theorem Volume.Ready.tryRecord (hv : v.Ready) (hp : v.inodes.get p = some inode)
    (hdir : v.isDirectory inode.index = true) (hi : i * direntSize ≤ inode.size)
    (hE : i * direntSize + direntSize < maxSize)
    (hclean : v.CleanWrite inode (i * direntSize) direntSize) (src : Bytes) :
    ∃ r w, inodeWrite v p direntSize (i * direntSize) src = .ok (r, w)
      ∧ v.Changes w inode.index ∧ (∀ {k}, v.Room (k + 6) → w.Room k)
      ∧ (bitAt v.disk v.sb.zmapStart 0 = true → bitAt w.disk w.sb.zmapStart 0 = true)
      ∧ (r = direntSize
          ∧ w.sizeOf inode.index = max inode.size (i * direntSize + direntSize)
          ∧ w.slot inode.index i = dirent src 0
          ∧ (∀ j, j ≠ i → j < v.sizeOf inode.index / direntSize →
              w.slot inode.index j = v.slot inode.index j)
          ∧ missing (v.has inode.index) (fileSlots (i * direntSize + direntSize))
              ≤ (freeZones v.sb v.disk).length
        ∨ r < 0 ∧ inode.size < i * direntSize + direntSize
          ∧ w.sizeOf inode.index = v.sizeOf inode.index
          ∧ (∀ j, j < v.sizeOf inode.index / direntSize →
              w.slot inode.index j = v.slot inode.index j)
          ∧ (bitAt v.disk v.sb.zmapStart 0 = true → (freeZones v.sb v.disk).length
              < missing (v.has inode.index) (fileSlots (i * direntSize + direntSize)))) := by
  obtain ⟨hidx, hsize⟩ := hv.inv.live hp
  have hsize' : inode.size = v.sizeOf inode.index := hsize
  have hd := hv.dirs hidx hdir
  have hsmall : inode.size < maxSize := by
    rw [hsize']
    exact hd.small
  have hmap : ∀ b, b ≤ inode.size / blockSize → v.Mapped inode.index b := by
    rw [hsize']
    exact hd.mapped
  obtain ⟨r, w, t, hrun, ht, hw, hres⟩ := inodeWrite_written hv.inv hp src hE hi hsmall hmap hclean
  have hfew := missing_six hE hsmall (Nat.div_le_div_right hi) hmap
  have hroom : ∀ {k}, v.Room (k + 6) → w.Room k := fun {k} h => by
    refine ⟨hw.keeps.bit0 h.1, ?_⟩
    have h6 := h.2
    rcases hres with ⟨_, _, hcost⟩ | ⟨_, _, _, _, hfull⟩
    · omega
    · have := (hfull h.1).2
      omega
  -- the record is in one block, so that it is written whole or not at all
  have ht' : t = direntSize ∨ t = 0 := by
    rcases hres with h | ⟨_, hlt, _, hborder, _⟩
    · exact .inl h.1
    · refine .inr (Nat.eq_zero_of_not_pos fun hpos => ?_)
      unfold direntSize blockSize at *
      omega
  have hs := hw.sizeOf hv.inv hp
  have hedits := inodeWrite_edits hv.inv hp hclean hrun
  refine ⟨r, w, hrun, hv.edits hidx hw.keeps.inv hedits fun _ => ⟨?_, ?_, ?_⟩, hroom,
    hw.keeps.bit0, ?_⟩
  · have := hd.whole
    unfold direntSize at *
    omega
  · have := hd.small
    omega
  · rw [hs, ← hsize']
    exact hw.mapped
  · rcases hres with ⟨rfl, hr, hcost⟩ | ⟨hlt, hlt', hneg, _, hfull⟩
    · obtain ⟨hself, hother⟩ := hw.slot hv.inv hp hd
      exact .inl ⟨hr, by rw [hs, hsize'], hself, hother, by omega⟩
    · have ht0 : t = 0 := ht'.resolve_left (Nat.ne_of_lt hlt')
      subst ht0
      refine .inr ⟨hneg rfl, hlt, by rw [hs]; omega, fun j hj => ?_, fun hb => (hfull hb).2⟩
      exact hw.slot_other hv.inv hp hd hj fun x _ => by omega

/-- **A record is appended** to a directory, if there are zones for it. -/
theorem Volume.Ready.tryAppend {ino : Nat} {name : CString} (hv : v.Ready)
    (hp : v.inodes.get p = some inode) (hdir : v.isDirectory inode.index = true)
    (hE : inode.size + direntSize < maxSize) (hclean : v.CleanWrite inode inode.size direntSize)
    (hino : ino < 2 ^ 32) (hlen : name.length ≤ nameMax) (h0 : 0 ∉ name) :
    ∃ r w, inodeWrite v p direntSize inode.size (direntBytes ino name) = .ok (r, w)
      ∧ v.Changes w inode.index ∧ (∀ {k}, v.Room (k + 6) → w.Room k)
      ∧ (bitAt v.disk v.sb.zmapStart 0 = true → bitAt w.disk w.sb.zmapStart 0 = true)
      ∧ v.recordZones inode.index ≤ 6
      ∧ (w.sizeOf inode.index = inode.size + direntSize
          ∧ w.slots inode.index = v.slots inode.index ++ [(ino, name)]
          ∧ v.recordZones inode.index ≤ (freeZones v.sb v.disk).length
        ∨ w.sizeOf inode.index = inode.size ∧ w.slots inode.index = v.slots inode.index
          ∧ (bitAt v.disk v.sb.zmapStart 0 = true →
              (freeZones v.sb v.disk).length < v.recordZones inode.index)) := by
  obtain ⟨hidx, hsize⟩ := hv.inv.live hp
  have hsize' : v.sizeOf inode.index = inode.size := hsize.symm
  have hend : inode.size / direntSize * direntSize = inode.size := by
    have := (hv.dirs hidx hdir).whole
    unfold direntSize at *
    omega
  obtain ⟨r, w, hrun, hc, hroom, hbit, hres⟩ := hv.tryRecord (i := inode.size / direntSize)
    hp hdir (by rw [hend]) (by rw [hend]; exact hE) (by rw [hend]; exact hclean)
    (direntBytes ino name)
  have hfew := missing_six (i := inode.size / direntSize) (n := inode.index) (v := v)
    (by rw [hend]; exact hE) (show inode.size < maxSize by omega) (by rw [hend])
    (by rw [← hsize']; exact (hv.dirs hidx hdir).mapped)
  unfold Volume.recordZones
  rw [hend] at hrun hres hfew
  rw [hsize']
  refine ⟨r, w, hrun, hc, hroom, hbit, hfew, ?_⟩
  unfold Volume.slots
  rcases hres with ⟨_, hs, hself, hother, hfit⟩ | ⟨_, _, hs, hall, hno⟩
  · rw [Nat.max_eq_right (Nat.le_add_right ..)] at hs
    refine .inl ⟨hs, ?_, hfit⟩
    rw [hs, hsize', Nat.add_div_right _ (by decide), List.range_succ, List.map_append, List.map_singleton,
      hself, dirent_direntBytes hino hlen h0]
    refine congrArg (· ++ _) (List.map_congr_left fun j hj => ?_)
    have hj' := List.mem_range.mp hj
    exact hother j (by omega) (by rw [hsize']; exact hj')
  · refine .inr ⟨by rw [hs, hsize'], ?_, hno⟩
    rw [hs]
    exact List.map_congr_left fun j hj => hall j (List.mem_range.mp hj)

/-! ## The other operations on inodes -/

theorem Volume.SameZones.room (h : v.SameZones w) (hr : v.Room k) : w.Room k := by
  refine ⟨h.2.2.trans hr.1, ?_⟩
  rw [h.1]
  exact hr.2

/-- **The number of links is changed**, in memory and on disk. -/
theorem Volume.Ready.setLinks (hv : v.Ready) (hp : v.indexOf p = some n) (f : Nat → Nat) :
    ∃ w, inodeSet { v with inodes := v.inodes.modify p fun i => { i with nlinks := f i.nlinks } } p
        = .ok w
      ∧ v.Changes w n ∧ v.SameFile w n ∧ v.SameZones w := by
  obtain ⟨inode, hget, rfl⟩ := indexOf_eq_some.mp hp
  have hidx := (hv.inv.live hget).1
  have hmem := hv.inv.mem.modify (f := fun i => { i with nlinks := f i.nlinks }) hget rfl
    (show InodeOk v.sb v.disk _ from ⟨hidx, (hv.inv.live hget).2⟩) fun _ _ h => h
  have hinv : Volume.Inv { v with
      inodes := v.inodes.modify p fun i => { i with nlinks := f i.nlinks } } :=
    ⟨hv.inv.layout, hv.inv.small, hv.inv.zones, hmem⟩
  have hedits : v.Edits { v with
      inodes := v.inodes.modify p fun i => { i with nlinks := f i.nlinks } } inode.index :=
    ⟨⟨rfl, fun _ => Iff.rfl, fun _ _ => rfl, fun _ _ => .refl _ _⟩, Iff.rfl, fun _ => rfl,
      .modify Inode.Same.refl p fun _ => ⟨rfl, rfl⟩⟩
  obtain ⟨w, hset, hw, he, hsame, hz, _⟩ := inodeSet_spec hinv (Store.modify_self_of hget rfl)
    (show inode.mode = iMode (readInode v.sb v.disk inode.index) from hv.modes hget)
  have hsame' : v.SameFile w inode.index := ⟨hsame.mode, hsame.size, hsame.mapped, hsame.bytes⟩
  exact ⟨w, hset, hv.edits hidx hw (hedits.trans he) fun hd => hsame'.dirOk (hv.dirs hidx hd),
    hsame', hz⟩

section Disk

variable (hsb : w.sb = v.sb) (hd : w.disk = v.disk)

include hsb hd

theorem sameFile_of_disk (n : Nat) : v.SameFile w n := by
  refine ⟨?_, ?_, fun _ => ?_, fun _ => ?_⟩ <;> simp only [Volume.Mapped, Volume.fileAt, hsb, hd]

theorem slots_of_disk (n : Nat) : w.slots n = v.slots n := by
  unfold Volume.slots Volume.slot Volume.sizeOf Volume.readAt Volume.fileAt
  rw [hsb, hd]

theorem entries_of_disk (n : Nat) : w.entries n = v.entries n := by
  unfold Volume.entries
  rw [slots_of_disk hsb hd, (sameFile_of_disk hsb hd n).isDirectory]

theorem Volume.Ready.dirs_of_disk (hv : v.Ready) {n : Nat}
    (hn : Allocated w.sb w.disk n) (hdir : w.isDirectory n = true) : w.DirOk n := by
  have hsame := sameFile_of_disk hsb hd n
  rw [hsb, hd] at hn
  exact hsame.dirOk (hv.dirs hn (hsame.isDirectory ▸ hdir))

end Disk

/-- `inode_get` changes nothing on disk, and the inodes in memory stay. -/
theorem Volume.Ready.get (hv : v.Ready) (hn : Allocated v.sb v.disk n) :
    (inodeGet v n).2.Ready ∧ (inodeGet v n).2.sb = v.sb ∧ (inodeGet v n).2.disk = v.disk
      ∧ (inodeGet v n).2.indexOf (inodeGet v n).1 = some n
      ∧ ∀ {q m}, v.indexOf q = some m → (inodeGet v n).2.indexOf q = some m := by
  have hinv := inodeGet_inv hv.inv hn
  unfold Volume.indexOf
  rcases getInode_cases hv.inv.mem.mem n with ⟨p, inode, hp, rfl, hg⟩ | ⟨hno, hg⟩
  · have hget : inodeGet v inode.index = (p, { v with inodes := v.inodes.modify p fun i =>
        { i with
          mode := iMode (readInode v.sb v.disk inode.index)
          size := iSize (readInode v.sb v.disk inode.index)
          nlinks := iNlinks (readInode v.sb v.disk inode.index) } }) := by
      unfold inodeGet
      rw [hg]
    rw [hget] at hinv ⊢
    refine ⟨⟨hinv, fun {q i} hq => ?_, fun hn hd => Volume.Ready.dirs_of_disk (by rfl) (by rfl) hv hn hd⟩,
      rfl, rfl, ?_, fun {q m} hq => ?_⟩
    · obtain ⟨j, hj, rfl⟩ := Store.get_modify hq
      split
      · rename_i h
        rw [h, hp] at hj
        cases hj
        rfl
      · exact hv.modes hj
    · rw [Store.modify_self_of hp rfl]
      rfl
    · obtain ⟨i, hi, rfl⟩ := Option.map_eq_some_iff.mp hq
      by_cases hqp : q = p
      · rw [Store.modify_self_of hi hqp]
        rfl
      · rw [Store.modify_ne hqp, hi]
        rfl
  · have hget : inodeGet v n = (v.inodes.next, { v with
        inodes := (v.inodes.alloc ⟨n, 0, 0, 0⟩).modify v.inodes.next fun i =>
          { i with
            mode := iMode (readInode v.sb v.disk n)
            size := iSize (readInode v.sb v.disk n)
            nlinks := iNlinks (readInode v.sb v.disk n) }
        list := v.inodes.next :: v.list }) := by
      unfold inodeGet
      rw [hg]
    rw [hget] at hinv ⊢
    refine ⟨⟨hinv, fun {q i} hq => ?_, fun hn hd => Volume.Ready.dirs_of_disk (by rfl) (by rfl) hv hn hd⟩,
      rfl, rfl, ?_, fun {q m} hq => ?_⟩
    · obtain ⟨j, hj, rfl⟩ := Store.get_modify hq
      split
      · rename_i h
        rw [h, Store.alloc_self] at hj
        cases hj
        rfl
      · rename_i h
        rw [Store.alloc_ne h] at hj
        exact hv.modes hj
    · rw [Store.modify_self_of Store.alloc_self rfl]
      rfl
    · obtain ⟨i, hi, rfl⟩ := Option.map_eq_some_iff.mp hq
      rw [Store.modify_ne (Nat.ne_of_lt (Store.lt_next hi)), Store.alloc_of_some hi]
      rfl

/-- `inode_create` has made inode `n` with the object `p`. -/
structure Volume.Creates (v w : Volume) (p n mode : Nat) : Prop where
  ready : w.Ready
  fresh : ¬ Allocated v.sb v.disk n
  alloc : ∀ {m}, Allocated w.sb w.disk m ↔ Allocated v.sb v.disk m ∨ m = n
  old : v.indexOf p = none
  new : w.indexOf p = some n
  index : ∀ {q}, q ≠ p → w.indexOf q = v.indexOf q
  size : w.sizeOf n = 0
  isDirectory_new : w.isDirectory n = isDir mode
  entries_new : w.entries n = []
  others : v.Others w n
  entries : ∀ {m}, Allocated v.sb v.disk m → w.entries m = v.entries m
  took : ∃ z, freeZones v.sb v.disk = z :: freeZones w.sb w.disk
  free : ∀ z ∈ freeZones w.sb w.disk, w.disk z = v.disk z
  bit0 : bitAt v.disk v.sb.zmapStart 0 = true → bitAt w.disk w.sb.zmapStart 0 = true

theorem Volume.Creates.freeZones_length {mode : Nat} (h : v.Creates w p n mode) :
    (freeZones v.sb v.disk).length = (freeZones w.sb w.disk).length + 1 := by
  obtain ⟨z, hz⟩ := h.took
  rw [hz, List.length_cons]

theorem Volume.Creates.room {mode : Nat} (h : v.Creates w p n mode) (hr : v.Room (k + 1)) : w.Room k := by
  have h1 := hr.2
  have h2 := h.freeZones_length
  exact ⟨h.bit0 hr.1, by omega⟩

theorem entries_of_empty (h : v.sizeOf n = 0) : v.entries n = [] := by
  unfold Volume.entries Volume.slots
  rw [h, Nat.zero_div, List.range_zero, List.map_nil, List.filter_nil, ite_self]

theorem Volume.Ready.create {mode : Nat} (hv : v.Ready) (hmode : mode < 2 ^ 16)
    (h : inodeCreate v mode = (some p, w)) : ∃ n, v.Creates w p n mode := by
  have hc : Created v mode (some p) w := by
    have := inodeCreate_cases hv.inv mode
    rwa [h] at this
  obtain ⟨_, hobj, _, _, hfree, hbit⟩ := hc.keeps hv.inv
  obtain ⟨n, hun, ho, hn, hm, hsize, hmap, hold, hnew, hother, htook⟩ := hc.others hv.inv
  have hne : ∀ {m}, Allocated v.sb v.disk m → m ≠ n := fun hm h => hun (h ▸ hm)
  rw [Nat.mod_eq_of_lt hmode] at hm
  have hsize' : w.sizeOf n = 0 := hsize
  refine ⟨n, hv.of_others (hc.inv hv.inv) ho (fun {q i} hq hi => ?_) (fun {q i} hq hi => ?_) fun _ _ => ?_,
    hun, fun {m} => ?_, ?_, ?_, fun {q} hq => ?_, hsize', congrArg isDir hm, entries_of_empty hsize', ho,
    fun hm => hv.entries_other ho (hne hm) hm, htook, fun z hz => (hfree z hz).2, hbit⟩
  · by_cases hqp : q = p
    · rw [hqp, hnew] at hq
      cases hq
      exact absurd rfl hi
    · rw [hother hqp] at hq
      exact ⟨i, hq, .refl i⟩
  · by_cases hqp : q = p
    · rw [hqp, hnew] at hq
      cases hq
      exact hm.symm
    · rw [hother hqp] at hq
      exact absurd (hi ▸ (hv.inv.live hq).1) hun
  · refine ⟨by rw [hsize']; rfl, by rw [hsize']; decide, fun b hb => ?_⟩
    rw [hsize', Nat.zero_div, Nat.le_zero] at hb
    rw [hb]
    exact hmap
  · by_cases hmn : m = n
    · subst hmn
      exact ⟨fun _ => Or.inr rfl, fun _ => hn⟩
    · rw [ho.alloc hmn]
      exact ⟨Or.inl, fun h => h.resolve_right hmn⟩
  · unfold Volume.indexOf
    rw [hold]
    rfl
  · unfold Volume.indexOf
    rw [hnew]
    rfl
  · unfold Volume.indexOf
    rw [hother hq]

/-- `inode_create` that gives up. -/
theorem Volume.Ready.create_none {mode : Nat} (hv : v.Ready) (h : inodeCreate v mode = (none, w)) :
    v.Changes w 0 := by
  have hc : Created v mode none w := by
    have := inodeCreate_cases hv.inv mode
    rwa [h] at this
  have he := hc.edits hv.inv 0
  have h0 : ¬ Allocated w.sb w.disk 0 := fun h => absurd h.1.1 (by decide)
  have hsame : ∀ {m}, Allocated v.sb v.disk m → v.SameFile w m := fun {m} hm =>
    he.toOthers.sameFile (fun h => absurd (h ▸ hm).1.1 (by decide)) hm
  refine ⟨hv.of_others (hc.inv hv.inv) he.toOthers (fun hp _ => he.objects.back hp)
    (fun hp hi => absurd (hi ▸ ((hc.inv hv.inv).live hp).1) h0) fun hn _ => absurd hn h0,
    fun {m} => by rw [he.allocated], fun q => ?_, fun hm => (hsame hm).isDirectory,
    fun hne hm => hv.entries_other he.toOthers hne hm, fun _ hm => hsame hm⟩
  cases hc
  rfl

/-- `inode_destroy` has taken inode `n` and the object `p`. -/
structure Volume.Destroys (v w : Volume) (p n : Nat) : Prop where
  ready : w.Ready
  alloc : ∀ {m}, Allocated w.sb w.disk m ↔ Allocated v.sb v.disk m ∧ m ≠ n
  gone : w.indexOf p = none
  index : ∀ {q}, q ≠ p → w.indexOf q = v.indexOf q
  isDirectory : ∀ {m}, m ≠ n → Allocated v.sb v.disk m → w.isDirectory m = v.isDirectory m
  entries : ∀ {m}, m ≠ n → Allocated v.sb v.disk m → w.entries m = v.entries m
  same : ∀ {m}, m ≠ n → Allocated v.sb v.disk m → v.SameFile w m

theorem Volume.Ready.destroy (hv : v.Ready) (hp : v.indexOf p = some n)
    (h : inodeDestroy v p = .ok w) : v.Destroys w p n := by
  obtain ⟨inode, hget, rfl⟩ := indexOf_eq_some.mp hp
  have hinv := inodeDestroy_inv hv.inv hget h
  obtain ⟨ho, hgone, hnone, hrel⟩ := inodeDestroy_others hv.inv hget h
  refine ⟨hv.of_others hinv ho (fun {q i} hq hi => ?_) (fun hq hi => ?_) (fun hn => absurd hn hgone),
    fun {m} => ?_, ?_, fun {q} hq => ?_, fun hne hm => (ho.sameFile hne hm).isDirectory,
    fun hne hm => hv.entries_other ho hne hm, fun hne hm => ho.sameFile hne hm⟩
  · have hqp : q ≠ p := by
      rintro rfl
      rw [hnone] at hq
      cases hq
    have := hrel hqp
    rw [hq] at this
    generalize v.inodes.get q = a at this
    cases this with
    | some hs => exact ⟨_, rfl, hs⟩
  · exact absurd (hi ▸ (hinv.live hq).1) hgone
  · by_cases hmn : m = inode.index
    · subst hmn
      exact ⟨fun h => absurd h hgone, fun h => absurd rfl h.2⟩
    · rw [ho.alloc hmn]
      exact ⟨fun h => ⟨h, hmn⟩, And.left⟩
  · unfold Volume.indexOf
    rw [hnone]
    rfl
  · unfold Volume.indexOf
    have := hrel hq
    generalize v.inodes.get q = a at this
    generalize w.inodes.get q = b at this
    cases this with
    | none => rfl
    | some hs => exact congrArg some hs.1

end Cyanurus
