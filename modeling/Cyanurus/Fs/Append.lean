import Cyanurus.Lib.Run
import Cyanurus.Fs.Write
import Cyanurus.Fs.ZoneRun

/-!
# Files that are only appended to

On a freshly formatted volume, inodes are created and written at their end, in any
order, while the volume may fill up at any point. What was appended to each file so far
is recorded beside the volume. Reading gives it back, and the result of a write says
how much of it was taken.
-/

namespace Cyanurus

open Lts

/-- A volume with the bytes appended to each inode made since it was mounted, by object. -/
structure Files where
  vol : Volume
  bytes : Nat → Option (List UInt8)

/-- A freshly formatted volume: the zones that are not marked are zero-filled. -/
structure Volume.Fresh (v : Volume) : Prop where
  mounted : v.Mounted
  small : v.sb.sZones ≤ 65535
  zero : ∀ z, v.sb.IsZone z → zmapBit v.sb v.disk z = false → ∀ x, v.disk z x = 0

inductive AppendAct where
  | create (mode : Nat)
  | append (p n : Nat) (data : Bytes)

/-- What is recorded when `inode_create` returns `r`. -/
def Files.created (bytes : Nat → Option (List UInt8)) : Option Nat → Nat → Option (List UInt8)
  | some p => Function.update bytes p (some [])
  | none => bytes

/-- What is recorded when an append of `data` to `p` returns `r`. -/
def Files.appended (bytes : Nat → Option (List UInt8)) (p : Nat) (old : List UInt8) (data : Bytes)
    (r : Int) : Nat → Option (List UInt8) :=
  if 0 ≤ r then Function.update bytes p (some (old ++ data.toList r.toNat)) else bytes

inductive AppendStep : Files → AppendAct → Files → Prop
  | create {s : Files} {mode : Nat} : AppendStep s (.create mode)
      ⟨(inodeCreate s.vol mode).2, Files.created s.bytes (inodeCreate s.vol mode).1⟩
  | append {s : Files} {p n : Nat} {data : Bytes} {old : List UInt8} {inode : Inode} {r : Int}
      {v : Volume} : s.bytes p = some old → s.vol.inodes.get p = some inode →
      inode.size + n < maxSize → inodeWrite s.vol p n inode.size data = .ok (r, v) →
      AppendStep s (.append p n data) ⟨v, Files.appended s.bytes p old data r⟩

/-- Every file has the size and the bytes that are recorded: a read of any range returns
the slice of them. -/
structure Files.Holds (s : Files) : Prop where
  size : ∀ {p bytes}, s.bytes p = some bytes →
    ∃ inode, s.vol.inodes.get p = some inode ∧ inode.size = bytes.length
  read : ∀ {p bytes}, s.bytes p = some bytes → ∀ start len out, start + len < 2 ^ 32 →
    ∃ r out', inodeRead s.vol p len start out = .ok (r, out')
      ∧ r = ((bytes.drop start).take len).length
      ∧ out'.toList ((bytes.drop start).take len).length = (bytes.drop start).take len

/-- What is claimed of a state: the files hold what is recorded, and an append to any of
them takes some first part of its data, or fails and changes nothing. -/
structure Files.Sound (s : Files) : Prop where
  holds : s.Holds
  append : ∀ (n : Nat) (data : Bytes) {p : Nat} {old : List UInt8} {inode : Inode}, s.bytes p = some old →
    s.vol.inodes.get p = some inode → inode.size + n < maxSize →
    ∃ r v, inodeWrite s.vol p n inode.size data = .ok (r, v) ∧ r ≤ n
      ∧ Files.Holds ⟨v, Files.appended s.bytes p old data r⟩
      ∧ ∃ inode', v.inodes.get p = some inode' ∧ inode'.size = inode.size + r.toNat

/-- A file with these bytes: the block behind the last byte is mapped too. -/
structure Volume.IsFile (v : Volume) (inode : Inode) (bytes : List UInt8) : Prop where
  size : inode.size = bytes.length
  small : bytes.length < maxSize
  mapped : ∀ b, b ≤ inode.size / blockSize → v.Mapped inode.index b
  byte : ∀ x, x < bytes.length → v.fileAt inode.index x = bytes[x]?

/-- The invariant of a run. -/
structure Files.Inv (s : Files) : Prop where
  vol : s.vol.Inv
  clear : ∀ z ∈ freeZones s.vol.sb s.vol.disk, Clear s.vol.disk z
  file : ∀ {p bytes}, s.bytes p = some bytes →
    ∃ inode, s.vol.inodes.get p = some inode ∧ s.vol.IsFile inode bytes

variable {s : Files} {v w : Volume} {p : Nat} {inode : Inode} {old : List UInt8} {data : Bytes}

/-! ## Reading -/

/-- A read returns the slice of the file. -/
theorem Volume.IsFile.read (hf : v.IsFile inode old) (hv : v.Inv)
    (hp : v.inodes.get p = some inode) {start len : Nat} (hE : start + len < 2 ^ 32) (out : Bytes) :
    ∃ r out', inodeRead v p len start out = .ok (r, out')
      ∧ r = ((old.drop start).take len).length
      ∧ out'.toList ((old.drop start).take len).length = (old.drop start).take len := by
  have hlen : ((old.drop start).take len).length = min len (inode.size - start) := by
    rw [List.length_take, List.length_drop, hf.size]
  refine ⟨_, _, inodeRead_eq hv.sited hp (hv.live hp).1 (by rw [hf.size]; exact hf.small) hE out, by rw [hlen], ?_⟩
  refine List.ext_getElem? fun i => ?_
  by_cases hi : i < ((old.drop start).take len).length
  · have hix : start + i < old.length := by
      rw [hlen, hf.size] at hi
      omega
    rw [Bytes.getElem?_toList _ hi, if_pos (by rw [← hlen]; exact hi)]
    unfold Volume.readAt
    rw [hf.byte _ hix, List.getElem?_take_of_lt (by rw [hlen] at hi; omega), List.getElem?_drop,
      List.getElem?_eq_getElem hix]
    rfl
  · rw [List.getElem?_eq_none (by rw [Bytes.length_toList]; omega),
      List.getElem?_eq_none (by omega)]

theorem Files.Inv.holds (hi : s.Inv) : s.Holds := by
  refine ⟨fun h => ?_, fun h start len out hE => ?_⟩
  · obtain ⟨inode, hp, hf⟩ := hi.file h
    exact ⟨inode, hp, hf.size⟩
  · obtain ⟨inode, hp, hf⟩ := hi.file h
    exact hf.read hi.vol hp hE out

/-! ## Writing -/

theorem Volume.IsFile.block_lt (hf : v.IsFile inode old) {b : Nat} (hb : b ≤ inode.size / blockSize) :
    b < 2 ^ 16 := by
  have h1 := hf.size
  have h2 := hf.small
  have h3 : maxSize + blockSize = maxOffset := rfl
  exact Nat.lt_of_le_of_lt hb (Cyanurus.block_lt (by omega))

theorem Volume.IsFile.offset_lt (hf : v.IsFile inode old) {x : Nat} (hx : x < old.length) :
    x < maxOffset := by
  have h2 := hf.small
  have h3 : maxSize + blockSize = maxOffset := rfl
  omega

/-- The other files while one is written. -/
theorem Volume.Keeps.isFile {n : Nat} {R : Nat → Prop} (hk : v.Keeps w p n R)
    (hm : Allocated v.sb v.disk inode.index) (hne : inode.index ≠ n) (hf : v.IsFile inode old) :
    w.IsFile inode old :=
  ⟨hf.size, hf.small, fun b hb => hk.mapped hm (hf.block_lt hb) (hf.mapped b hb), fun x hx => by
    have h := hf.byte x hx
    rw [List.getElem?_eq_getElem hx] at h ⊢
    exact hk.bytes hm (hf.offset_lt hx) (fun e => absurd e hne) h⟩

/-- The file that is written. -/
theorem Written.isFile {k : Nat} (hw : Written v w p inode inode.size k data)
    (hm : Allocated v.sb v.disk inode.index) (hf : v.IsFile inode old)
    (hlim : inode.size + k < maxSize) :
    w.IsFile { inode with size := inode.size + k } (old ++ data.toList k) := by
  have hmax : max inode.size (inode.size + k) = inode.size + k := by omega
  have hlen : (old ++ data.toList k).length = inode.size + k := by
    rw [List.length_append, Bytes.length_toList, hf.size]
  refine ⟨hlen.symm, by rw [hlen]; exact hlim, fun b hb => hw.mapped b (by rw [hmax]; exact hb),
    fun x hx => ?_⟩
  by_cases hxo : x < old.length
  · have h := hf.byte x hxo
    rw [List.getElem?_eq_getElem hxo] at h
    rw [List.getElem?_append_left hxo, List.getElem?_eq_getElem hxo]
    exact hw.keeps.bytes hm (hf.offset_lt hxo) (fun _ hr => by rw [hf.size] at hr; omega) h
  · rw [hlen] at hx
    have hx' : x - old.length < k := by
      rw [hf.size] at hx
      omega
    have h := hw.data (x - old.length) hx'
    rw [hf.size, show old.length + (x - old.length) = x by omega] at h
    rw [List.getElem?_append_right (by omega), Bytes.getElem?_toList _ hx']
    exact h

/-- **An append takes the first `r` bytes, or none and fails.** -/
theorem Files.Inv.append {n : Nat} (hi : s.Inv) (hb : s.bytes p = some old)
    (hp : s.vol.inodes.get p = some inode) (hE : inode.size + n < maxSize) :
    ∃ r v, inodeWrite s.vol p n inode.size data = .ok (r, v) ∧ r ≤ n
      ∧ Files.Inv ⟨v, Files.appended s.bytes p old data r⟩
      ∧ ∃ inode', v.inodes.get p = some inode' ∧ inode'.size = inode.size + r.toNat := by
  obtain ⟨i, hp', hf⟩ := hi.file hb
  rw [hp] at hp'
  cases hp'
  have hm := (hi.vol.live hp).1
  obtain ⟨r, v, k, hrun, hk, hw, hend⟩ := inodeWrite_written hi.vol hp data hE (Nat.le_refl _)
    (by rw [hf.size]; exact hf.small) hf.mapped (clean_of_clear hi.clear)
  have hr : (0 ≤ r ∧ r.toNat = k) ∨ (r < 0 ∧ k = 0) := by
    rcases hend with ⟨h1, h2, _⟩ | ⟨_, _, h1, h2, _⟩
    · left
      omega
    · rcases Nat.eq_zero_or_pos k with h0 | h0
      · exact Or.inr ⟨h1 h0, h0⟩
      · left
        omega
  have hmax : max inode.size (inode.size + k) = inode.size + k := by omega
  have hget := hw.get
  rw [hmax] at hget
  have hfile := hw.isFile hm hf (by omega)
  refine ⟨r, v, hrun, ?_, ⟨hw.keeps.inv, fun z hz j hj => ?_, fun {q bytes} hq => ?_⟩, _, hget, ?_⟩
  · rcases hend with ⟨h1, h2, _⟩ | ⟨_, _, h1, h2, _⟩ <;> rcases hr with ⟨h3, h4⟩ | ⟨h3, h4⟩ <;> omega
  · obtain ⟨h1, h2⟩ := hw.keeps.free hz
    rw [h2]
    exact hi.clear z h1 j hj
  · have hq : Files.appended s.bytes p old data r q = some bytes := hq
    unfold Files.appended at hq
    by_cases hqp : q = p
    · subst hqp
      refine ⟨_, hget, ?_⟩
      rcases hr with ⟨h1, h2⟩ | ⟨h1, h2⟩
      · rw [if_pos h1, Function.update_self, h2] at hq
        cases hq
        exact hfile
      · rw [if_neg (by omega), hb] at hq
        cases hq
        subst h2
        simpa [Bytes.toList] using hfile
    · have hold : s.bytes q = some bytes := by
        split at hq
        · rw [Function.update_of_ne hqp] at hq
          exact hq
        · exact hq
      obtain ⟨j, hj, hfj⟩ := hi.file hold
      have hne : j.index ≠ inode.index := fun h => hqp (hi.vol.mem.inj hj hp h)
      exact ⟨j, by rw [hw.keeps.others hqp]; exact hj, hw.keeps.isFile (hi.vol.live hj).1 hne hfj⟩
  · rcases hr with ⟨h1, h2⟩ | ⟨h1, h2⟩ <;> simp only <;> omega

/-! ## Creating -/

/-- **A new inode is an empty file.** -/
theorem Files.Inv.create (hi : s.Inv) {mode : Nat} {r : Option Nat}
    (hc : Created s.vol mode r v) :
    Files.Inv ⟨v, Files.created s.bytes r⟩ := by
  obtain ⟨halloc, hmem, hmapped, hfile, hfree, _⟩ := hc.keeps hi.vol
  have hold : ∀ {q bytes}, s.bytes q = some bytes →
      ∃ inode, v.inodes.get q = some inode ∧ v.IsFile inode bytes := by
    intro q bytes hq
    obtain ⟨j, hj, hf⟩ := hi.file hq
    have hm := (hi.vol.live hj).1
    refine ⟨j, hmem q j hj, hf.size, hf.small, fun b hb => ?_, fun x hx => ?_⟩
    · exact (hmapped _ b hm (hf.block_lt hb)).mpr (hf.mapped b hb)
    · rw [hfile _ x hm (hf.offset_lt hx)]
      exact hf.byte x hx
  refine ⟨hc.inv hi.vol, fun z hz j hj => ?_, fun {q bytes} hq => ?_⟩
  · obtain ⟨h1, h2⟩ := hfree z hz
    rw [h2]
    exact hi.clear z h1 j hj
  · cases r with
    | none => exact hold hq
    | some p =>
      have hq : Function.update s.bytes p (some []) q = some bytes := hq
      by_cases hqp : q = p
      · subst hqp
        rw [Function.update_self] at hq
        cases hq
        obtain ⟨n, _, hget, _, h0⟩ := hc.new hi.vol
        refine ⟨_, hget, rfl, by decide, fun b hb => ?_, fun x hx => absurd hx (by simp)⟩
        have hb0 : b = 0 := by simpa using hb
        rw [hb0]
        exact h0
      · rw [Function.update_of_ne hqp] at hq
        exact hold hq

/-! ## Runs -/

theorem Volume.Fresh.inv (hv : v.Fresh) : Files.Inv ⟨v, fun _ => none⟩ := by
  have hsmall := hv.small
  refine ⟨hv.mounted.inv (by omega), fun z hz j _ => ?_, fun h => absurd h (by simp)⟩
  have hz : z ∈ freeZones v.sb v.disk := hz
  obtain ⟨h1, h2, h3⟩ := mem_freeZones.mp hz
  have hzero : v.disk z = fun _ => 0 := funext (hv.zero z ⟨h1, by omega⟩ h3)
  rw [hzero]
  exact Bytes.load_zero ..

theorem appendStep_inv {a : AppendAct} {s' : Files} (hi : s.Inv) (h : AppendStep s a s') : s'.Inv := by
  cases h with
  | create => exact hi.create (inodeCreate_cases hi.vol _)
  | append hb hp hE hrun =>
    obtain ⟨r, v, hrun', _, hinv, _⟩ := hi.append hb hp hE
    rw [hrun] at hrun'
    cases hrun'
    exact hinv

/-- **Append-only files read back, after every run from a fresh volume.** -/
theorem append_run_sound {as : List AppendAct} (hv : v.Fresh)
    (hr : Run AppendStep ⟨v, fun _ => none⟩ as s) : s.Sound := by
  have hi := Run.invariant hr hv.inv fun _ _ _ hi h => appendStep_inv hi h
  refine ⟨hi.holds, fun _ _ _ _ _ hb hp hE => ?_⟩
  obtain ⟨r, w, hrun, hle, hinv, hsize⟩ := hi.append hb hp hE
  exact ⟨r, w, hrun, hle, hinv.holds, hsize⟩

/-- A volume with 64 inodes and four data zones, none of them in use. -/
def emptyVolume : Volume where
  sb := ⟨64, 1, 1, 5, 9⟩
  disk := fun b => if b = 2 ∨ b = 3 then fun x => if x = 0 then 1 else 0 else fun _ => 0
  inodes := Store.empty
  list := []

theorem emptyVolume_fresh : emptyVolume.Fresh := by
  have hnone : ∀ {n}, ¬ Allocated emptyVolume.sb emptyVolume.disk n := by
    intro n hn
    have hbits : ∀ n ≤ 64, imapBit emptyVolume.disk n = true → n = 0 := by decide
    have := hbits n hn.1.2 hn.2
    have := hn.1.1
    omega
  refine ⟨⟨⟨by decide, by decide, by decide, by decide⟩, ⟨fun hn => absurd hn hnone,
    fun hn => absurd hn hnone, fun hn => absurd hn hnone⟩, rfl, rfl⟩, by decide, fun z hz _ x => ?_⟩
  have hz5 : 5 ≤ z := hz.1
  unfold emptyVolume
  simp only []
  rw [if_neg (by omega)]

/-- A file is created and five bytes are appended to it. -/
theorem append_run_sound_five : ∃ s, Run AppendStep ⟨emptyVolume, fun _ => none⟩
    [.create 0o100644, .append 0 5 fun x => UInt8.ofNat x] s ∧ s.bytes 0 = some [0, 1, 2, 3, 4]
      ∧ s.Sound := by
  have hcreate : (inodeCreate emptyVolume 0o100644).1 = some 0 := by decide
  have hget : (inodeCreate emptyVolume 0o100644).2.inodes.get 0 = some ⟨1, 0o100644, 0, 0⟩ := by
    decide
  have hret : (inodeWrite (inodeCreate emptyVolume 0o100644).2 0 5 0
      fun x => UInt8.ofNat x).toOption.map Prod.fst = some 5 := by decide
  have h1 : Run AppendStep ⟨emptyVolume, fun _ => none⟩ [.create 0o100644]
      ⟨(inodeCreate emptyVolume 0o100644).2, Files.created (fun _ => none) (some 0)⟩ := by
    exact Run.nil.snoc .create
  have hb : Files.created (fun _ => none) (some 0) 0 = some [] := rfl
  let data : Nat → UInt8 := fun x => UInt8.ofNat x
  obtain ⟨r, v, hrun, _, _, _⟩ :=
    (append_run_sound emptyVolume_fresh h1).append 5 data hb hget (by decide)
  have h2 := h1.snoc (.append hb hget (by decide) hrun)
  have hr : r = 5 := by
    rw [hrun] at hret
    simpa [Except.toOption] using hret
  subst hr
  exact ⟨_, h2, rfl, append_run_sound emptyVolume_fresh h2⟩

end Cyanurus
