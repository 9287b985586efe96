import Cyanurus.Lib.CString
import Cyanurus.Fs.Dentry

/-!
# Names in their fields

The name of a directory entry is kept in `name[NAME_MAX]` of its dentry, in `d_name[NAME_MAX]`
of its record and, while a path is looked up, in a local `name[NAME_MAX]`. None of them has
room for a terminator besides 60 characters. Here are the string functions that the kernel
applies to these fields, with the indices that they touch; what lies behind a field is
whatever it is.

The bounded functions keep to the fields. `strcpy` in `write_child` and `strnlen` in
`process_getdents64` go one byte too far if the name takes up the whole field.
**`names_in_bounds`** says that this is the only length they are wrong for.
-/

namespace Cyanurus

open CStr

/-- The bytes of a name from an index on, and a field of them with what lies behind it. -/
abbrev Chars := Nat → UInt8

/-! ## The accesses -/

section Accesses

variable (arg : Chars)

/-- `alloc_dentry`: `new->name` is zeroed and takes a copy of the name. -/
def allocDentryName (behind : Chars) : Chars := strncpy behind arg nameMax

/-- `create_dentry` with the names of the children that there are, `alloc_dentry` and
`write_child`: the indices that are touched in name fields. -/
def createTouches (children : List Chars) (new : Chars) : List Nat :=
  children.flatMap (fun child => (strncmp child arg nameMax).2)
    ++ List.range nameMax
    ++ List.range nameMax
    ++ (strcpyLoop new (nameMax + 1) 0).2

/-- `write_child` zeroes `dirent.d_name`, and copies the name over it with `strcpy`. -/
def writeChildName (new behind : Chars) : Chars := fun i =>
  if i ∈ (strcpyLoop new (nameMax + 1) 0).2 then new i else if i < nameMax then 0 else behind i

/-- The name that `lookup_dentry` cuts from a path: `len` characters in a field of zeros. -/
def lookupName (len : Nat) (behind : Chars) : Chars :=
  strncpy (fun i => if i < nameMax then 0 else behind i) arg len

/-- One component of a path in `lookup_dentry`. -/
def lookupTouches (len : Nat) (children : List Chars) (behind : Chars) : List Nat :=
  List.range nameMax ++ List.range len
    ++ children.flatMap fun child => (strncmp child (lookupName arg len behind) nameMax).2

/-- `read_children`: each record is copied to a new dentry. -/
def readTouches (records : List Chars) : List Nat :=
  records.flatMap fun record => List.range nameMax ++ strncpyReads record nameMax 0

/-- `remove_child` with the name of a dentry. -/
def removeTouches (records : List Chars) (name : Chars) : List Nat :=
  records.flatMap fun record => (strncmp record name nameMax).2

/-- `namelen` of `process_getdents64`. -/
def namelen (record : Chars) : Nat := (strnlen record nameMax).1 + 1

/-- `process_getdents64` measures the name of a record and copies it. -/
def listTouches (record : Chars) : List Nat :=
  (strnlen record nameMax).2 ++ strncpyReads record (namelen record) 0

/-- The name in the buffer of the caller. -/
def listedName (out record : Chars) : Chars := strncpy out record (namelen record)

end Accesses

/-- The name can be created, looked up, removed and listed: nothing behind the fields is
touched, and the name that is listed is the one that was created. The contents of all other
fields, and what lies behind each of them, may be anything. -/
def NameSafe (name : CString) : Prop :=
  ∀ (arg : Chars) (children records : List Chars) (behindDentry behindRecord behindLocal out : Chars),
    Starts arg name →
    let new := allocDentryName arg behindDentry
    let record := fun i => if i < nameMax then writeChildName new behindRecord i else behindLocal i
    (strcpyLoop new (nameMax + 1) 0).1 = true
      ∧ (∀ i ∈ createTouches arg children new, i < nameMax)
      ∧ (∀ i ∈ lookupTouches arg name.length (new :: children) behindLocal, i < nameMax)
      ∧ (∀ i ∈ readTouches (record :: records), i < nameMax)
      ∧ (∀ i ∈ removeTouches (record :: records) new, i < nameMax)
      ∧ (∀ i ∈ listTouches record, i < nameMax)
      ∧ Starts (listedName out record) name

/-! ## The bounded functions -/

section Bounded

variable {arg : Chars} {name : CString}

theorem range_lt {n : Nat} (hn : n ≤ nameMax) : ∀ i ∈ List.range n, i < nameMax := fun _ hi =>
  Nat.lt_of_lt_of_le (List.mem_range.mp hi) hn

/-- A comparison of at most `NAME_MAX` characters stays in the fields. -/
theorem strncmps_lt (fields : List Chars) (name : Chars) :
    ∀ i ∈ fields.flatMap fun field => (strncmp field name nameMax).2, i < nameMax := by
  intro i hi
  obtain ⟨field, _, hi⟩ := List.mem_flatMap.mp hi
  simpa using strncmpLoop_lt hi

theorem lookupTouches_lt {len : Nat} (hlen : len ≤ nameMax) (children : List Chars) (behind : Chars) :
    ∀ i ∈ lookupTouches arg len children behind, i < nameMax := by
  simp only [lookupTouches, List.forall_mem_append]
  exact ⟨⟨range_lt (Nat.le_refl _), range_lt hlen⟩, strncmps_lt children _⟩

theorem readTouches_lt (records : List Chars) : ∀ i ∈ readTouches records, i < nameMax := by
  intro i hi
  obtain ⟨record, _, hi⟩ := List.mem_flatMap.mp hi
  rcases List.mem_append.mp hi with hi | hi
  · exact List.mem_range.mp hi
  · simpa using strncpyReads_lt hi

/-- The field of a new dentry. -/
theorem allocDentryName_inField (behind : Chars) (ha : Starts arg name) (hp : Proper name) :
    InField (allocDentryName arg behind) name nameMax := fun _ hi =>
  strncpy_starts behind ha hp hi

/-- The comparisons of the kernel are the ones of the model, between two fields and between a
field and an argument that ends with a zero. -/
theorem strncmp_sameName {s t : Chars} {a b : CString} (hs : Holds s a nameMax)
    (ht : Holds t b nameMax) (ha : Proper a) (hb : Proper b) (hla : a.length ≤ nameMax)
    (hlb : b.length ≤ nameMax) : (strncmp s t nameMax).1 = sameName a b := by
  rw [Bool.eq_iff_iff, strncmp_holds hs ht ha hb hla hlb]
  unfold sameName
  rw [List.take_of_length_le hla, List.take_of_length_le hlb, beq_iff_eq]

/-- A field that a name takes up, and an argument with a shorter one. -/
theorem strncmp_sameName_full :
    (strncmp (fun _ => 97) (fun i => if i < 59 then 97 else 0) nameMax).1
      = sameName (List.replicate nameMax 97) (List.replicate 59 97) := by
  have hfield : InField (fun _ => 97) (List.replicate nameMax 97) nameMax := fun i hi => by
    rw [List.getElem?_replicate_of_lt hi]
    rfl
  have harg : Starts (fun i => if i < 59 then 97 else 0) (List.replicate 59 97) := by
    refine ⟨fun i c hc => ?_, rfl⟩
    obtain ⟨hi, rfl⟩ := List.getElem?_eq_some_iff.mp hc
    rw [if_pos (by simpa using hi), List.getElem_replicate]
  have hp : ∀ n, Proper (List.replicate n 97) := fun n c hc => by
    rw [List.eq_of_mem_replicate hc]
    decide
  exact strncmp_sameName hfield.holds (harg.holds _) (hp _) (hp _) (by decide) (by decide)

end Bounded

/-! ## Names that leave room for a zero -/

section Short

variable {s : Chars} {name : CString}

/-- A field that holds a shorter name holds its zero as well. -/
theorem starts_of_inField (h : InField s name nameMax) (hlen : name.length < nameMax) :
    Starts s name where
  begins := fun i c hc => by
    have hi : i < name.length := (List.getElem?_eq_some_iff.mp hc).1
    rw [h i (by omega), hc]
    rfl
  zero := by
    rw [h name.length hlen, List.getElem?_eq_none (Nat.le_refl _)]
    rfl

/-- The record of a name is zero behind it. -/
theorem writeChildName_inField {behind : Chars} (h : InField s name nameMax) (hp : Proper name)
    (hlen : name.length < nameMax) : InField (writeChildName s behind) name nameMax := by
  have hs := starts_of_inField h hlen
  intro i hi
  unfold writeChildName
  split
  · exact h i hi
  · rename_i hno
    have hge : name.length < i := by
      refine Nat.lt_of_not_le fun hle => hno ?_
      exact strcpyLoop_touches (fun j hj => hs.begins.ne_zero hp (by omega)) (Nat.zero_le i) (by omega)
    rw [List.getElem?_eq_none (by omega)]
    rfl

theorem nameSafe_of_short (hp : Proper name) (hlen : name.length < nameMax) : NameSafe name := by
  intro arg children records behindDentry behindRecord behindLocal out ha new record
  have hnew : InField new name nameMax := allocDentryName_inField behindDentry ha hp
  have hrecord : InField record name nameMax := fun i hi => by
    simp only [record, if_pos hi]
    exact writeChildName_inField hnew hp hlen i hi
  have hcopy := strcpyLoop_starts (starts_of_inField hnew hlen) hp (nameMax + 1) 0 (Nat.zero_le _)
    (by omega)
  have hstart := starts_of_inField hrecord hlen
  obtain ⟨hcount, hreads⟩ := strnlenLoop_starts hstart hp nameMax 0 (Nat.zero_le _) (by omega)
  have hsize : namelen record = name.length + 1 := congrArg (· + 1) hcount
  refine ⟨hcopy.1, ?_, lookupTouches_lt hlen.le _ _, readTouches_lt _, strncmps_lt _ _, ?_, ?_⟩
  · simp only [createTouches, List.forall_mem_append]
    refine ⟨⟨⟨strncmps_lt children arg, range_lt (Nat.le_refl _)⟩, range_lt (Nat.le_refl _)⟩, ?_⟩
    exact fun i hi => Nat.lt_of_le_of_lt (hcopy.2 i hi) hlen
  · simp only [listTouches, List.forall_mem_append]
    refine ⟨fun i hi => Nat.lt_of_le_of_lt (hreads i hi) hlen, fun i hi => ?_⟩
    have := strncpyReads_lt hi
    omega
  · unfold listedName
    refine ⟨fun i c hc => ?_, ?_⟩
    · have hi : i < name.length := (List.getElem?_eq_some_iff.mp hc).1
      rw [strncpy_starts out hstart hp (by omega), hc]
      rfl
    · rw [strncpy_starts out hstart hp (by omega), List.getElem?_eq_none (Nat.le_refl _)]
      rfl

end Short

/-- A name that takes up the whole field. -/
theorem not_nameSafe_of_full {name : CString} (hp : Proper name) (hlen : name.length = nameMax) :
    ¬ NameSafe name := by
  intro h
  let arg : Chars := fun i => (name[i]?).getD 0
  have ha : Starts arg name := by
    refine ⟨fun i c hc => ?_, ?_⟩
    · simp [arg, hc]
    · simp [arg]
  have hnew := allocDentryName_inField (fun _ => 0) ha hp
  -- the copy of the dentry's name goes on at the index behind it
  have hfull : nameMax ∈ (strcpyLoop (allocDentryName arg fun _ => 0) (nameMax + 1) 0).2 := by
    refine strcpyLoop_touches (fun j hj => ?_) (Nat.zero_le _) (by omega)
    rw [hnew j hj, List.getElem?_eq_getElem (by omega)]
    exact hp _ (List.getElem_mem _)
  have hin := (h arg [] [] (fun _ => 0) (fun _ => 0) (fun _ => 0) (fun _ => 0) ha).2.1 nameMax
    (List.mem_append_right _ hfull)
  exact absurd hin (Nat.lt_irrefl _)

/-- **Names are handled in bounds** exactly if they leave room for a zero. -/
theorem names_in_bounds {name : CString} (hp : Proper name) (hmax : name.length ≤ nameMax) :
    NameSafe name ↔ name.length < nameMax :=
  ⟨fun h => Nat.lt_of_le_of_ne hmax fun hfull => not_nameSafe_of_full hp hfull h,
    fun hlen => nameSafe_of_short hp hlen⟩

theorem names_in_bounds_short : Proper [102, 111, 111] ∧ [102, 111, 111].length ≤ nameMax
    ∧ NameSafe [102, 111, 111] := by
  have hp : Proper [102, 111, 111] := by simp [Proper]
  exact ⟨hp, by decide, (names_in_bounds hp (by decide)).mpr (by decide)⟩

/-- A name of 60 characters is accepted, and written past its field. -/
theorem full_name_overruns : ¬ ∀ name : CString, Proper name → 1 ≤ name.length →
    name.length ≤ nameMax → NameSafe name := by
  intro h
  have hp : Proper (List.replicate nameMax 97) := fun c hc => by
    rw [List.eq_of_mem_replicate hc]
    decide
  have hlen : (List.replicate nameMax (97 : UInt8)).length = nameMax := List.length_replicate
  exact not_nameSafe_of_full hp hlen (h _ hp (by rw [hlen]; decide) hlen.le)

end Cyanurus
