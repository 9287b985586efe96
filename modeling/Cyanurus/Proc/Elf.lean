import Cyanurus.Fs.Append
import Cyanurus.Mem.Room
import Cyanurus.Sys.UserAccess

/-!
# Loading executables

`elf_load` reads the header of a file and then one program header after the other. A header of
type `PT_LOAD` with the flags of a text or a data segment makes it take pages for the bytes of the
segment in the file, check the addresses and read the bytes into the pages. The pages are those
of a `World`, so what is taken and given back can be counted; `inode_read` reads blocks through a
page of its own, which it leaves with arbitrary bytes (`scrap`) and gives back.

**`elf_load_faithful`**: if the file is accepted, the segments are what the table says they are.
The invariant of the loop (`Progressed`) says so for the headers that were read; it survives the
next round because a page that is held keeps its bytes whatever else is taken (`World.Keeps`).
-/

namespace Cyanurus

open Slab (World PageKept)

/-! ## The source -/

/-- `struct elf_segment` -/
structure ElfSegment where
  page : Option Nat
  addr : Nat
  fileSize : Nat
  memorySize : Nat
deriving DecidableEq

/-- The two segments of an executable. -/
inductive ElfPart where
  | text
  | data
deriving DecidableEq

/-- `struct elf_executable` -/
structure ElfExecutable where
  entryPoint : Nat
  text : ElfSegment
  data : ElfSegment
deriving DecidableEq

def ElfExecutable.segment (x : ElfExecutable) : ElfPart → ElfSegment
  | .text => x.text
  | .data => x.data

def ElfExecutable.setSegment (x : ElfExecutable) (c : ElfPart) (segment : ElfSegment) : ElfExecutable :=
  match c with
  | .text => { x with text := segment }
  | .data => { x with data := segment }

theorem ElfExecutable.segment_set (x : ElfExecutable) (c c' : ElfPart) (segment : ElfSegment) :
    (x.setSegment c segment).segment c' = if c' = c then segment else x.segment c' := by
  cases c <;> cases c' <;> rfl

/-- The fields of `struct elf_program_header` that are looked at. -/
structure ElfProgramHeader where
  type : Nat
  offset : Nat
  virtualAddr : Nat
  fileSize : Nat
  memorySize : Nat
  flags : Nat

/-- A program header as it is in memory. -/
def ElfProgramHeader.ofBytes (m : Bytes) : ElfProgramHeader where
  type := m.load 4 0
  offset := m.load 4 4
  virtualAddr := m.load 4 8
  fileSize := m.load 4 16
  memorySize := m.load 4 20
  flags := m.load 4 24

/-- `ELF_PH_TYPE_LOAD`, and then the flags `R | X` or `R | W`. -/
def ElfProgramHeader.part (header : ElfProgramHeader) : Option ElfPart :=
  if header.type ≠ 1 then none
  else if header.flags = 5 then some .text
  else if header.flags = 6 then some .data
  else none

/-- The fields of `struct elf_header` that are looked at. -/
structure ElfHeader where
  magic : List UInt8
  fileClass : Nat
  data : Nat
  idVersion : Nat
  type : Nat
  arch : Nat
  version : Nat
  entryPoint : Nat
  programHeaderOffset : Nat
  flags : Nat
  programHeaderSize : Nat
  programHeaderNum : Nat

def ElfHeader.ofBytes (m : Bytes) : ElfHeader where
  magic := m.toList 4
  fileClass := m.load 1 4
  data := m.load 1 5
  idVersion := m.load 1 6
  type := m.load 2 16
  arch := m.load 2 18
  version := m.load 4 20
  entryPoint := m.load 4 24
  programHeaderOffset := m.load 4 28
  flags := m.load 4 36
  programHeaderSize := m.load 2 42
  programHeaderNum := m.load 2 44

/-- The checks of the header: a 32-bit little-endian executable for ARM, `ELF_FLAGS_EABI_V5`. -/
def ElfHeader.ok (header : ElfHeader) : Bool :=
  header.magic = [0x7f, 0x45, 0x4c, 0x46] && header.fileClass = 1 && header.data = 1
    && header.idVersion = 1 && header.type = 2 && header.arch = 40 && header.version = 1
    && (header.flags &&& 0xff000000) = 0x05000000

/-- Where program header `i` lies in the file. -/
def ElfHeader.entryOffset (header : ElfHeader) (i : Nat) : Nat :=
  (header.programHeaderOffset + header.programHeaderSize * i) % 2 ^ 32

/-- `BRK_ADDRESS_END` -/
def brkAddressEnd : Nat := 0x10000000

/-- `IS_EXECUTABLE_ADDRESS` -/
def isExecutableAddress (a : Nat) : Bool := decide (userAddressStart ≤ a) && decide (a < brkAddressEnd)

/-- `validate_segment` -/
def validateSegment (segment : ElfSegment) : Bool :=
  if segment.memorySize < segment.fileSize then false
  -- `add_overflow_unsigned_long`
  else if 2 ^ 32 - 1 - segment.memorySize < segment.addr then false
  else isExecutableAddress segment.addr && isExecutableAddress (segment.addr + segment.memorySize)

section Load

variable (v : Volume) (scrap : Bytes) (inode : Nat)

/-- `inode_read`, with the page that it reads blocks into. -/
def pageRead (w : World) (size start : Nat) (out : Bytes) : Except Halt (Int × Bytes × World) := do
  let (page, w) ← w.pageAlloc blockSize
  let (r, out) ← inodeRead v inode size start out
  let w ← (w.setMem (w.heap.mem.copy (pageAddress page) scrap 0 blockSize)).pageFree page
  .ok (r, out, w)

/-- `release_segment` -/
def releaseSegment (w : World) (segment : ElfSegment) : Except Halt (World × ElfSegment) :=
  match segment.page with
  | none => .ok (w, segment)
  | some page => (w.pageFree page).map fun w => (w, { segment with page := none })

/-- `load_segment` -/
def loadSegment (w : World) (segment : ElfSegment) (header : ElfProgramHeader) :
    Except Halt (Int × World × ElfSegment) :=
  if segment.page.isSome then .ok (-1, w, segment)
  else do
    let (page, w) ← w.pageAlloc header.fileSize
    let segment := ⟨some page, header.virtualAddr, header.fileSize, header.memorySize⟩
    if validateSegment segment = false then
      let (w, segment) ← releaseSegment w segment
      .ok (-1, w, segment)
    else
      let (size, data, w) ← pageRead v scrap inode w header.fileSize header.offset
        fun x => w.heap.mem (pageAddress page + x)
      let w := w.setMem (w.heap.mem.copy (pageAddress page) data 0 header.fileSize)
      if size < 0 ∨ size ≠ header.fileSize then
        let (w, segment) ← releaseSegment w segment
        .ok (-1, w, segment)
      else .ok (0, w, segment)

/-- `elf_release` -/
def elfRelease (w : World) (x : ElfExecutable) : Except Halt (World × ElfExecutable) := do
  let (w, text) ← releaseSegment w x.text
  let (w, data) ← releaseSegment w x.data
  .ok (w, { x with text := text, data := data })

/-- The loop of `elf_load`, from program header `i` on. -/
def elfLoadLoop (header : ElfHeader) : Nat → Nat → World → ElfExecutable → Except Halt (Int × World × ElfExecutable)
  | 0, _, w, x => .ok (0, w, { x with entryPoint := header.entryPoint })
  | n + 1, i, w, x => do
      let (rs, bytes, w) ← pageRead v scrap inode w 32 (header.entryOffset i) fun _ => 0
      if rs ≠ 32 then .ok (-1, w, x)
      else
        match (ElfProgramHeader.ofBytes bytes).part with
        | none => elfLoadLoop header n (i + 1) w x
        | some c =>
          let (r, w, segment) ← loadSegment v scrap inode w (x.segment c) (.ofBytes bytes)
          if r < 0 then
            let (w, x) ← elfRelease w (x.setSegment c segment)
            .ok (-1, w, x)
          else elfLoadLoop header n (i + 1) w (x.setSegment c segment)

/-- `elf_load` of the file that `dentry_lookup` has found. `x` is what is in `*executable` before. -/
def elfLoad (w : World) (x : ElfExecutable) : Except Halt (Int × World × ElfExecutable) := do
  let (rs, m, w) ← pageRead v scrap inode w 52 0 fun _ => 0
  let header := ElfHeader.ofBytes m
  if rs ≠ 52 ∨ header.ok = false then .ok (-1, w, x)
  else elfLoadLoop v scrap inode header header.programHeaderNum 0 w ⟨0, ⟨none, 0, 0, 0⟩, ⟨none, 0, 0, 0⟩⟩

end Load

/-! ## Headers -/

variable {m m' : Bytes}

theorem load_congr_of_agree {n : Nat} (h : Bytes.Agree m m' 0 n) (k a : Nat) (hk : a + k ≤ n) :
    m'.load k a = m.load k a :=
  Bytes.load_congr (h.sub (Nat.zero_le a) (by omega))

theorem ElfHeader.ofBytes_congr (h : Bytes.Agree m m' 0 52) : ElfHeader.ofBytes m' = .ofBytes m := by
  have hmagic : m'.toList 4 = m.toList 4 := List.map_congr_left fun x hx =>
    h x (Nat.zero_le x) (by have := List.mem_range.mp hx; omega)
  simp (disch := decide) only [ElfHeader.ofBytes, hmagic, load_congr_of_agree h]

theorem ElfProgramHeader.ofBytes_congr (h : Bytes.Agree m m' 0 32) :
    ElfProgramHeader.ofBytes m' = .ofBytes m := by
  simp (disch := decide) only [ElfProgramHeader.ofBytes, load_congr_of_agree h]

/-! ## Pages that are held -/

/-- The pages that are held are held on, with their bytes. -/
structure PagesKept (w w' : World) : Prop where
  inv : ∃ fl fc cp, Slab.Inv w' fl fc cp
  kept : ∀ q ∈ w.other, q ∈ w'.other ∧ PageKept w.heap w'.heap q

theorem PagesKept.trans {w w' w'' : World} (h : PagesKept w w') (h' : PagesKept w' w'') :
    PagesKept w w'' := by
  refine ⟨h'.inv, fun q hq => ?_⟩
  obtain ⟨hq', hkept⟩ := h.kept q hq
  obtain ⟨hq'', hkept'⟩ := h'.kept q hq'
  exact ⟨hq'', hkept.trans hkept'⟩

variable {w w' : World} {fl : Nat → List Nat} {fc cp : List Nat} {p page n : Nat}

/-- A new page is none of those that are held. -/
theorem Slab.Inv.pageAlloc_kept (hi : Slab.Inv w fl fc cp) (h : w.pageAlloc n = .ok (page, w')) :
    PagesKept w w' ∧ page ∉ w.other ∧ w'.other = page :: w.other
      ∧ n ≤ 2 ^ (w'.heap.buddy.pages page).order * pageSize ∧ n ≤ pageNum * pageSize := by
  obtain ⟨hs, hother, _⟩ := World.pageAlloc_step h
  obtain ⟨fl', fc', cp', hi'⟩ := Slab.inv_step hi hs
  have hnd := (List.nodup_append.mp hi'.nodup).2.1
  rw [hother] at hnd
  refine ⟨⟨⟨fl', fc', cp', hi'⟩, fun q hq => hs.page_kept hi hq (by simp) (by simp)⟩,
    (List.nodup_cons.mp hnd).1, hother, ?_⟩
  obtain ⟨ord, free, wf⟩ := hi.pool
  obtain ⟨⟨q, b⟩, ha, h⟩ := bind_eq_ok h
  cases h
  obtain ⟨_, _, wf', _, hfirst, hfits, _⟩ := Buddy.buddyAlloc_wf wf ha
  have hin := Slab.head_inside wf' hfirst
  exact ⟨hfits, hfits.trans (Nat.mul_le_mul_right _ (by omega))⟩

/-- Writing to a page leaves the others alone. -/
theorem Slab.Inv.copy_kept (hi : Slab.Inv w fl fc cp) (hp : page ∈ w.other)
    (hn : n ≤ 2 ^ (w.heap.buddy.pages page).order * pageSize) (src : Bytes) :
    Slab.Inv (w.setMem (w.heap.mem.copy (pageAddress page) src 0 n)) fl fc cp
      ∧ ∀ q ∈ w.other, q ≠ page →
        PageKept w.heap (w.setMem (w.heap.mem.copy (pageAddress page) src 0 n)).heap q := by
  refine ⟨hi.pageBytes hp fun a ha => Bytes.copy_out _ _ ?_, fun q hq hne => .of_mem ?_⟩
  · unfold pageAddress pageSize at *
    omega
  · have hap := hi.page_apart hp hq (Ne.symm hne)
    refine Bytes.copy_agree _ _ _ ?_
    unfold Bytes.Apart at *
    omega

/-! ## Reading -/

section Read

variable {v : Volume} {scrap : Bytes} {inode : Nat} {I : Inode} {size start : Nat} {out out' : Bytes} {r : Int}

/-- Sizes up to that of the pool do not wrap when they are added to an offset in the file. -/
theorem inodeRead_within (start : Nat) (out : Bytes) (hv : v.Inv) (hp : v.inodes.get inode = some I)
    (hsize : I.size < maxSize) (hle : size ≤ pageNum * pageSize) : ∃ out',
    inodeRead v inode size start out = .ok ((min size (I.size - start) : Nat), out')
      ∧ ∀ x < min size (I.size - start), out' x = v.readAt I.index (start + x) := by
  have hmax : maxSize = 268431360 := rfl
  unfold pageNum pageSize at hle
  by_cases hE : start + size < 2 ^ 32
  · exact ⟨_, inodeRead_eq hv.sited hp (hv.live hp).1 hsize hE out, fun x hx => if_pos hx⟩
  · unfold inodeRead
    rw [hp, show min size (I.size - start) = 0 by omega]
    simp only [if_pos (show I.size ≤ start by omega)]
    exact ⟨out, rfl, fun x hx => absurd hx (Nat.not_lt_zero x)⟩

/-- A read leaves the pages that are held alone, and holds no page itself. -/
theorem pageRead_spec (hv : v.Inv) (hp : v.inodes.get inode = some I) (hsize : I.size < maxSize)
    (hw : ∃ fl fc cp, Slab.Inv w fl fc cp) (hle : size ≤ pageNum * pageSize)
    (h : pageRead v scrap inode w size start out = .ok (r, out', w')) :
    r = (min size (I.size - start) : Nat)
      ∧ (∀ x < min size (I.size - start), out' x = v.readAt I.index (start + x))
      ∧ PagesKept w w' ∧ w'.other = w.other := by
  obtain ⟨⟨page, w₁⟩, halloc, h⟩ := bind_eq_ok h
  obtain ⟨⟨r₁, out₁⟩, hread, h⟩ := bind_eq_ok h
  obtain ⟨w₂, hfree, h⟩ := bind_eq_ok h
  obtain ⟨rfl, rfl, rfl⟩ := h
  obtain ⟨fl, fc, cp, hi⟩ := hw
  obtain ⟨hkept, hnew, hother, hfits, -⟩ := hi.pageAlloc_kept halloc
  obtain ⟨out₂, hread₂, hbytes⟩ := inodeRead_within start out hv hp hsize hle
  cases hread.symm.trans hread₂
  obtain ⟨fl₁, fc₁, cp₁, hi₁⟩ := hkept.inv
  have hmem : page ∈ w₁.other := by rw [hother]; exact List.mem_cons_self ..
  obtain ⟨hi₂, hcopy⟩ := hi₁.copy_kept hmem hfits scrap
  generalize hw₃ : w₁.setMem _ = w₃ at hfree hi₂ hcopy
  have hother₃ : w₃.other = w₁.other := by rw [← hw₃]; rfl
  obtain ⟨hs, hother₂, _⟩ := World.pageFree_step (hother₃ ▸ hmem) hfree
  refine ⟨rfl, hbytes, ⟨Slab.inv_step hi₂ hs, fun q hq => ?_⟩, ?_⟩
  · -- the page of the read is not `q`
    have hne : q ≠ page := fun he => hnew (he ▸ hq)
    obtain ⟨hq₁, hkept₁⟩ := hkept.kept q hq
    obtain ⟨hq₂, hkept₂⟩ := hs.page_kept hi₂ (hother₃ ▸ hq₁) (fun he => hne (by injection he with he; exact he.symm)) (by simp)
    exact ⟨hq₂, (hkept₁.trans (hcopy q hq₁ hne)).trans hkept₂⟩
  · rw [hother₂, hother₃, hother, List.erase_cons_head]

/-- A read for which there is room does not halt. -/
theorem pageRead_room (scrap : Bytes) (start : Nat) (out : Bytes) (hv : v.Inv) (hp : v.inodes.get inode = some I)
    (hsize : I.size < maxSize) (hw : ∃ fl fc cp, Slab.Inv w fl fc cp) (hle : size ≤ pageNum * pageSize) {k : Nat}
    (hr : w.heap.buddy.Room (1 + k)) : ∃ y, pageRead v scrap inode w size start out = .ok y
      ∧ y.2.2.heap.buddy.Room k := by
  obtain ⟨fl, fc, cp, hi⟩ := hw
  obtain ⟨⟨page, w₁⟩, halloc, hr₁⟩ := (hi.pageAlloc_costs (show blockSize ≤ _ by decide)).returns hr
  obtain ⟨hkept, -, hother, hfits, -⟩ := hi.pageAlloc_kept halloc
  obtain ⟨_, _, _, hi₁⟩ := hkept.inv
  have hmem : page ∈ w₁.other := by rw [hother]; exact List.mem_cons_self ..
  have hi₂ := (hi₁.copy_kept hmem hfits scrap).1
  obtain ⟨w', hfree⟩ := hi₂.pageFree_ok hmem
  obtain ⟨out', hread, -⟩ := inodeRead_within start out hv hp hsize hle
  unfold pageRead
  simp only [halloc, hread, hfree, bind, Except.bind]
  exact ⟨_, rfl, hi₂.pageFree_room hmem hfree hr₁⟩

/-! ## A segment -/

/-- The addresses of a segment are those that a program may use, and do not wrap. -/
structure ElfProgramHeader.InRange (header : ElfProgramHeader) : Prop where
  size : header.fileSize ≤ header.memorySize
  first : userAddressStart ≤ header.virtualAddr
  stop : header.virtualAddr + header.memorySize < brkAddressEnd

/-- The bytes of the segment are in a page that is held. -/
structure ElfProgramHeader.Loaded (header : ElfProgramHeader) (v : Volume) (I : Inode) (w : World) (page : Nat) :
    Prop where
  held : page ∈ w.other
  fits : header.fileSize ≤ 2 ^ (w.heap.buddy.pages page).order * pageSize
  /-- All of them are in the file. -/
  inFile : header.fileSize ≤ I.size - header.offset
  bytes : ∀ x < header.fileSize, w.heap.mem (pageAddress page + x) = v.readAt I.index (header.offset + x)

/-- What is held keeps its bytes. -/
theorem ElfProgramHeader.Loaded.kept {header : ElfProgramHeader} (h : header.Loaded v I w page)
    (hk : PagesKept w w') : header.Loaded v I w' page := by
  obtain ⟨hheld, hpage, hbytes⟩ := hk.kept page h.held
  refine ⟨hheld, by rw [hpage]; exact h.fits, h.inFile, fun x hx => ?_⟩
  have hfits := h.fits
  rw [hbytes _ (by omega) (by omega), h.bytes x hx]

theorem inRange_of_validate {header : ElfProgramHeader} {page : Option Nat}
    (h : validateSegment ⟨page, header.virtualAddr, header.fileSize, header.memorySize⟩ ≠ false) :
    header.InRange := by
  simp only [validateSegment, isExecutableAddress] at h
  split at h
  · exact absurd rfl h
  split at h
  · exact absurd rfl h
  simp only [Bool.not_eq_false, Bool.and_eq_true, decide_eq_true_eq] at h
  exact ⟨by omega, h.1.1, h.2.2⟩

/-- **`load_segment` takes a segment only once, and as the header has it.** -/
theorem loadSegment_spec (hv : v.Inv) (hp : v.inodes.get inode = some I) (hsize : I.size < maxSize)
    (hw : ∃ fl fc cp, Slab.Inv w fl fc cp) {segment segment' : ElfSegment} {header : ElfProgramHeader}
    (h : loadSegment v scrap inode w segment header = .ok (r, w', segment')) (hr : ¬ r < 0) :
    segment.page = none ∧ PagesKept w w' ∧ ∃ page,
      segment' = ⟨some page, header.virtualAddr, header.fileSize, header.memorySize⟩
        ∧ header.InRange ∧ header.Loaded v I w' page := by
  have hfail : ∀ {x : Except Halt (World × ElfSegment)},
      (do let y ← x; .ok ((-1 : Int), y.1, y.2)) ≠ .ok (r, w', segment') := by
    intro x hx
    obtain ⟨y, _, hx⟩ := bind_eq_ok hx
    exact hr (by rw [← (Prod.mk.inj (Except.ok.inj hx)).1]; decide)
  unfold loadSegment at h
  split at h
  · exact absurd (by rw [← (Prod.mk.inj (Except.ok.inj h)).1]; decide) hr
  rename_i hnone
  obtain ⟨⟨page, w₁⟩, halloc, h⟩ := bind_eq_ok h
  simp only at h
  split at h
  · exact absurd h hfail
  rename_i hvalid
  obtain ⟨⟨size, data, w₂⟩, hread, h⟩ := bind_eq_ok h
  split at h
  · exact absurd h hfail
  obtain ⟨rfl, rfl, rfl⟩ := h
  obtain ⟨fl, fc, cp, hi⟩ := hw
  obtain ⟨hkept, hnew, hother, hfits, hpool⟩ := hi.pageAlloc_kept halloc
  have hmem : page ∈ w₁.other := by rw [hother]; exact List.mem_cons_self ..
  obtain ⟨hcount, hdata, hkept₂, hother₂⟩ := pageRead_spec hv hp hsize hkept.inv hpool hread
  obtain ⟨hmem₂, hpage, _⟩ := hkept₂.kept page hmem
  rw [← hpage] at hfits
  obtain ⟨fl₂, fc₂, cp₂, hi₂⟩ := hkept₂.inv
  obtain ⟨hi₃, hcopy⟩ := hi₂.copy_kept hmem₂ hfits data
  have hfull : header.fileSize ≤ I.size - header.offset := by omega
  refine ⟨by simpa using hnone, ⟨⟨_, _, _, hi₃⟩, fun q hq => ?_⟩, page, rfl, inRange_of_validate hvalid,
    hmem₂, hfits, hfull, fun x hx => ?_⟩
  · obtain ⟨hq₁, hkept₁⟩ := (hkept.trans hkept₂).kept q hq
    exact ⟨hq₁, hkept₁.trans (hcopy q hq₁ fun he => hnew (he ▸ hq))⟩
  · show w₂.heap.mem.copy (pageAddress page) data 0 header.fileSize (pageAddress page + x) = _
    rw [Bytes.copy_in _ _ hx, Nat.zero_add]
    exact hdata x (by omega)

theorem validate_of_inRange {header : ElfProgramHeader} (h : header.InRange) (page : Option Nat) :
    validateSegment ⟨page, header.virtualAddr, header.fileSize, header.memorySize⟩ = true := by
  obtain ⟨h1, h2, h3⟩ := h
  have hend : brkAddressEnd = 0x10000000 := rfl
  unfold validateSegment
  dsimp only
  rw [if_neg (by omega), if_neg (by omega)]
  simp only [isExecutableAddress, Bool.and_eq_true, decide_eq_true_eq]
  omega

/-- A small segment that lies in the file is taken. -/
theorem loadSegment_room (scrap : Bytes) (hv : v.Inv) (hp : v.inodes.get inode = some I) (hsize : I.size < maxSize)
    (hw : ∃ fl fc cp, Slab.Inv w fl fc cp) {segment : ElfSegment} {header : ElfProgramHeader}
    (hnone : segment.page = none) (hin : header.InRange) (hfile : header.fileSize ≤ I.size - header.offset)
    (hsmall : header.fileSize ≤ 4 * pageSize) {k : Nat} (hr : w.heap.buddy.Room (1 + (1 + k))) :
    ∃ y, loadSegment v scrap inode w segment header = .ok y ∧ y.1 = 0 ∧ y.2.1.heap.buddy.Room k := by
  obtain ⟨fl, fc, cp, hi⟩ := hw
  obtain ⟨⟨page, w₁⟩, halloc, hr₁⟩ := (hi.pageAlloc_costs hsmall).returns hr
  obtain ⟨hkept, -, -, -, hpool⟩ := hi.pageAlloc_kept halloc
  obtain ⟨⟨r, data, w₂⟩, hread, hr₂⟩ := pageRead_room scrap header.offset
    (fun x => w₁.heap.mem (pageAddress page + x)) hv hp hsize hkept.inv hpool hr₁
  obtain ⟨hcount, -⟩ := pageRead_spec hv hp hsize hkept.inv hpool hread
  obtain rfl : r = header.fileSize := by omega
  unfold loadSegment
  rw [if_neg (by simp [hnone])]
  simp only [halloc, hread, bind, Except.bind, validate_of_inRange hin]
  rw [if_neg (by simp), if_neg (by omega)]
  exact ⟨_, rfl, rfl, hr₂⟩

/-! ## The table -/

/-- Program header `i` of the file. -/
def Volume.programHeader (v : Volume) (n : Nat) (header : ElfHeader) (i : Nat) : ElfProgramHeader :=
  .ofBytes fun x => v.readAt n (header.entryOffset i + x)

/-- The segment is what the first `k` program headers say. -/
inductive ElfHeader.Describes (header : ElfHeader) (v : Volume) (I : Inode) (w : World) (k : Nat) (c : ElfPart) :
    ElfSegment → Prop where
  | absent : (∀ j < k, (v.programHeader I.index header j).part ≠ some c) →
      Describes header v I w k c ⟨none, 0, 0, 0⟩
  | loaded {i page : Nat} {h : ElfProgramHeader} : h = v.programHeader I.index header i → i < k →
      (∀ j < k, (v.programHeader I.index header j).part = some c ↔ j = i) →
      h.InRange → h.Loaded v I w page →
      Describes header v I w k c ⟨some page, h.virtualAddr, h.fileSize, h.memorySize⟩

namespace ElfHeader.Describes

variable {header : ElfHeader} {i : Nat} {c : ElfPart} {segment : ElfSegment} {h : ElfProgramHeader}

theorem kept (hd : header.Describes v I w i c segment) (hk : PagesKept w w') :
    header.Describes v I w' i c segment := by
  cases hd with
  | absent hno => exact .absent hno
  | loaded hh hlt honly hin hload => exact .loaded hh hlt honly hin (hload.kept hk)

/-- The next header is about something else. -/
theorem skip (hd : header.Describes v I w i c segment)
    (hother : (v.programHeader I.index header i).part ≠ some c) :
    header.Describes v I w (i + 1) c segment := by
  cases hd with
  | absent hno =>
    refine .absent fun j hj => ?_
    rcases Nat.lt_succ_iff_lt_or_eq.mp hj with hlt | rfl
    · exact hno j hlt
    · exact hother
  | loaded hh hlt honly hin hload =>
    refine .loaded hh (by omega) (fun j hj => ?_) hin hload
    rcases Nat.lt_succ_iff_lt_or_eq.mp hj with hlt' | rfl
    · exact honly j hlt'
    · exact ⟨fun he => absurd he hother, fun he => absurd he (by omega)⟩

/-- A segment that has a header is there. -/
theorem page_ne_none (hd : header.Describes v I w n c segment) (hi : i < n)
    (hpart : (v.programHeader I.index header i).part = some c) : segment.page ≠ none := by
  cases hd with
  | absent hno => exact absurd hpart (hno i hi)
  | loaded => simp

/-- The next header is the first one about the segment. -/
theorem load (hd : header.Describes v I w i c segment) (hnone : segment.page = none)
    (hh : h = v.programHeader I.index header i) (hpart : h.part = some c) (hin : h.InRange)
    (hload : h.Loaded v I w' page) :
    header.Describes v I w' (i + 1) c ⟨some page, h.virtualAddr, h.fileSize, h.memorySize⟩ := by
  cases hd with
  | absent hno =>
    refine .loaded hh (Nat.lt_succ_self i) (fun j hj => ?_) hin hload
    rcases Nat.lt_succ_iff_lt_or_eq.mp hj with hlt | rfl
    · exact ⟨fun he => absurd he (hno j hlt), fun he => absurd he (by omega)⟩
    · exact ⟨fun _ => rfl, fun _ => hh ▸ hpart⟩
  | loaded => cases hnone

end ElfHeader.Describes

/-- **The loop keeps to the table.** The induction is on the headers that are left. -/
theorem elfLoadLoop_spec {header : ElfHeader} (hv : v.Inv) (hp : v.inodes.get inode = some I)
    (hsize : I.size < maxSize) {x' : ElfExecutable} : ∀ (n i : Nat) (w : World) (x : ElfExecutable),
    (∃ fl fc cp, Slab.Inv w fl fc cp) → (∀ c, header.Describes v I w i c (x.segment c)) →
    elfLoadLoop v scrap inode header n i w x = .ok (0, w', x') →
    (∀ c, header.Describes v I w' (i + n) c (x'.segment c)) ∧ x'.entryPoint = header.entryPoint
      ∧ ∀ j, i ≤ j → j < i + n → header.entryOffset j + 32 ≤ I.size := by
  intro n
  induction n with
  | zero =>
    intro i w x hw hd h
    obtain ⟨-, rfl, rfl⟩ := h
    exact ⟨fun c => by cases c with
      | text => exact hd .text
      | data => exact hd .data, rfl, fun j h1 h2 => by omega⟩
  | succ n ih =>
    intro i w x hw hd h
    obtain ⟨⟨rs, bytes, w₁⟩, hread, h⟩ := bind_eq_ok h
    simp only at h
    obtain ⟨hrs, hbytes, hkept, -⟩ := pageRead_spec hv hp hsize hw (by decide) hread
    split at h
    · exact absurd (congrArg Prod.fst (Except.ok.inj h)) (by simp)
    have hin : header.entryOffset i + 32 ≤ I.size := by omega
    have hhead : ElfProgramHeader.ofBytes bytes = v.programHeader I.index header i :=
      ElfProgramHeader.ofBytes_congr fun y _ hy => hbytes y (by omega)
    rw [hhead] at h
    -- whatever is done with this header, the rest goes on from `i + 1`
    have hrest : ∀ {w₂ : World} {x₂ : ElfExecutable}, (∃ fl fc cp, Slab.Inv w₂ fl fc cp) →
        (∀ c, header.Describes v I w₂ (i + 1) c (x₂.segment c)) →
        elfLoadLoop v scrap inode header n (i + 1) w₂ x₂ = .ok (0, w', x') →
        (∀ c, header.Describes v I w' (i + (n + 1)) c (x'.segment c))
          ∧ x'.entryPoint = header.entryPoint
          ∧ ∀ j, i ≤ j → j < i + (n + 1) → header.entryOffset j + 32 ≤ I.size := by
      intro w₂ x₂ hw₂ hd₂ h₂
      obtain ⟨hall, hentry, hoff⟩ := ih (i + 1) w₂ x₂ hw₂ hd₂ h₂
      rw [show i + (n + 1) = i + 1 + n by omega]
      refine ⟨hall, hentry, fun j h1 h2 => ?_⟩
      rcases Nat.eq_or_lt_of_le h1 with rfl | hlt
      · exact hin
      · exact hoff j hlt h2
    split at h
    · rename_i hpart
      exact hrest hkept.inv (fun c => ((hd c).kept hkept).skip (by rw [hpart]; simp)) h
    · rename_i c hpart
      obtain ⟨⟨r, w₂, segment⟩, hseg, h⟩ := bind_eq_ok h
      split at h
      · obtain ⟨y, -, h⟩ := bind_eq_ok h
        exact absurd (congrArg Prod.fst (Except.ok.inj h)) (by simp)
      rename_i hr
      obtain ⟨hnone, hkept₂, page, rfl, hrange, hload⟩ := loadSegment_spec hv hp hsize hkept.inv hseg hr
      refine hrest hkept₂.inv (fun c' => ?_) h
      rw [ElfExecutable.segment_set]
      split
      · subst_vars
        exact (hd _).load hnone rfl hpart hrange hload
      · rename_i hne
        refine (((hd c').kept hkept).kept hkept₂).skip ?_
        rw [hpart]
        exact fun he => hne (Option.some.inj he).symm

/-- Program header `i` describes a small segment, all of which is in the file. -/
structure ElfHeader.Describable (header : ElfHeader) (v : Volume) (I : Inode) (i : Nat) (c : ElfPart) : Prop where
  table : header.entryOffset i + 32 ≤ I.size
  part : (v.programHeader I.index header i).part = some c
  inRange : (v.programHeader I.index header i).InRange
  inFile : (v.programHeader I.index header i).fileSize
    ≤ I.size - (v.programHeader I.index header i).offset
  small : (v.programHeader I.index header i).fileSize ≤ 4 * pageSize

/-- A round that meets such a header goes on to the next. -/
theorem elfLoadLoop_room (scrap : Bytes) {header : ElfHeader} {i k : Nat} {c : ElfPart} {x : ElfExecutable} (n : Nat)
    (hv : v.Inv) (hp : v.inodes.get inode = some I) (hsize : I.size < maxSize)
    (hw : ∃ fl fc cp, Slab.Inv w fl fc cp) (hd : header.Describable v I i c) (hnone : (x.segment c).page = none)
    (hr : w.heap.buddy.Room (1 + (1 + (1 + k)))) : ∃ w' segment,
    elfLoadLoop v scrap inode header (n + 1) i w x
        = elfLoadLoop v scrap inode header n (i + 1) w' (x.setSegment c segment)
      ∧ (∃ fl fc cp, Slab.Inv w' fl fc cp) ∧ w'.heap.buddy.Room k := by
  obtain ⟨⟨rs, bytes, w₁⟩, hread, hr₁⟩ := pageRead_room scrap (header.entryOffset i) (fun _ => 0)
    hv hp hsize hw (show 32 ≤ _ by decide) hr
  obtain ⟨hrs, hbytes, hkept, -⟩ := pageRead_spec hv hp hsize hw (by decide) hread
  have hin := hd.table
  have hhead : ElfProgramHeader.ofBytes bytes = v.programHeader I.index header i :=
    ElfProgramHeader.ofBytes_congr fun y _ hy => hbytes y (by omega)
  obtain ⟨⟨r, w₂, segment⟩, hseg, hzero, hr₂⟩ := loadSegment_room scrap hv hp hsize hkept.inv hnone
    hd.inRange hd.inFile hd.small hr₁
  obtain rfl : r = 0 := hzero
  obtain ⟨-, hkept₂, -⟩ := loadSegment_spec hv hp hsize hkept.inv hseg (by decide)
  refine ⟨w₂, segment, ?_, hkept₂.inv, hr₂⟩
  rw [elfLoadLoop]
  simp only [hread, hhead, hd.part, hseg, bind, Except.bind]
  rw [if_neg (by omega), if_neg (by decide)]

/-- The executable is what the file says it is. -/
structure ElfExecutable.Faithful (x : ElfExecutable) (v : Volume) (I : Inode) (w : World) (header : ElfHeader) :
    Prop where
  ok : header.ok = true
  entry : x.entryPoint = header.entryPoint
  /-- The table lies in the file. -/
  table : ∀ i < header.programHeaderNum, header.entryOffset i + 32 ≤ I.size
  /-- At most one header is about each segment, and if there is one, the segment was loaded as it says. -/
  segments : ∀ c, header.Describes v I w header.programHeaderNum c (x.segment c)

/-- **Accepted executables are loaded faithfully.** -/
theorem elf_load_faithful (hv : v.Inv) (hp : v.inodes.get inode = some I) (hsize : I.size < maxSize)
    (hw : ∃ fl fc cp, Slab.Inv w fl fc cp) {x₀ x : ElfExecutable}
    (h : elfLoad v scrap inode w x₀ = .ok (0, w', x)) :
    52 ≤ I.size ∧ x.Faithful v I w' (.ofBytes (v.readAt I.index)) := by
  obtain ⟨⟨rs, m, w₁⟩, hread, h⟩ := bind_eq_ok h
  simp only at h
  obtain ⟨hrs, hbytes, hkept, -⟩ := pageRead_spec hv hp hsize hw (by decide) hread
  split at h
  · exact absurd (congrArg Prod.fst (Except.ok.inj h)) (by simp)
  rename_i hok
  have hheader : ElfHeader.ofBytes m = .ofBytes (v.readAt I.index) :=
    ElfHeader.ofBytes_congr fun y _ hy => by rw [hbytes y (by omega), Nat.zero_add]
  rw [hheader] at h hok
  obtain ⟨hall, hentry, htable⟩ := elfLoadLoop_spec hv hp hsize _ 0 w₁ _ hkept.inv
    (fun c => by cases c <;> exact .absent fun j hj => absurd hj (Nat.not_lt_zero j)) h
  simp only [Nat.zero_add] at hall htable
  refine ⟨by omega, ?_, hentry, fun i hi => htable i (Nat.zero_le i) hi, hall⟩
  cases hb : (ElfHeader.ofBytes (v.readAt I.index)).ok with
  | true => rfl
  | false => exact absurd (.inr hb) hok

end Read

/-- An executable with four bytes of text and two of data. -/
def smallElf : List UInt8 :=
  [0x7f, 0x45, 0x4c, 0x46, 1, 1, 1, 0, 0, 0, 0, 0, 0, 0, 0, 0, 2, 0, 40, 0, 1, 0, 0, 0, 0, 0, 1, 0]
    ++ [52, 0, 0, 0, 0, 0, 0, 0, 0, 0, 0, 5, 52, 0, 32, 0, 2, 0, 0, 0, 0, 0, 0, 0]
    ++ [1, 0, 0, 0, 116, 0, 0, 0, 0, 0, 1, 0, 0, 0, 0, 0, 4, 0, 0, 0, 4, 0, 0, 0, 5, 0, 0, 0, 0, 0, 0, 0]
    ++ [1, 0, 0, 0, 120, 0, 0, 0, 0, 0, 2, 0, 0, 0, 0, 0, 2, 0, 0, 0, 8, 0, 0, 0, 6, 0, 0, 0, 0, 0, 0, 0]
    ++ [0x1e, 0xff, 0x2f, 0xe1, 7, 9]

/-- A new volume on which a file with these bytes was written. -/
theorem exists_file (bytes : List UInt8) (hlen : bytes.length < maxSize)
    (hret : (inodeWrite (inodeCreate emptyVolume 0o100644).2 0 bytes.length 0
      fun x => bytes.getD x 0).toOption.map Prod.fst = some (bytes.length : Int)) :
    ∃ (v : Volume) (I : Inode), v.Inv ∧ v.inodes.get 0 = some I ∧ I.size = bytes.length
      ∧ ∀ x < bytes.length, v.readAt I.index x = bytes.getD x 0 := by
  have hi : Files.Inv ⟨(inodeCreate emptyVolume 0o100644).2, Files.created (fun _ => none) (some 0)⟩ := by
    exact appendStep_inv emptyVolume_fresh.inv .create
  obtain ⟨r, v, hwrite, -, hinv, -⟩ := @Files.Inv.append _ 0 _ _ (fun x => bytes.getD x 0) _ hi
    rfl (show _ = some ⟨1, 0o100644, 0, 0⟩ by decide) (by simpa using hlen)
  obtain rfl : r = bytes.length := by
    rw [show inodeWrite _ 0 _ 0 _ = .ok (r, v) from hwrite] at hret
    simpa [Except.toOption] using hret
  have hlist : Bytes.toList (fun x => bytes.getD x 0) bytes.length = bytes := by
    refine List.ext_getElem (by simp [Bytes.toList]) fun x h1 h2 => ?_
    simp [Bytes.toList, h2]
  obtain ⟨I, hp, hf⟩ := @Files.Inv.file _ hinv 0 bytes (by simpa [Files.appended] using hlist)
  refine ⟨v, I, hinv.vol, hp, hf.size, fun x hx => ?_⟩
  rw [Volume.readAt, hf.byte x hx, List.getD_eq_getElem?_getD]

def smallHeader : ElfHeader := .ofBytes fun x => smallElf.getD x 0

set_option maxRecDepth 4000 in
theorem smallHeader_describable {v : Volume} {I : Inode} (hsize : I.size = smallElf.length)
    (hbytes : ∀ x < smallElf.length, v.readAt I.index x = smallElf.getD x 0) :
    smallHeader.Describable v I 0 .text ∧ smallHeader.Describable v I 1 .data := by
  have hhead : ∀ i, smallHeader.entryOffset i + 32 ≤ smallElf.length → v.programHeader I.index smallHeader i
      = .ofBytes fun x => smallElf.getD (smallHeader.entryOffset i + x) 0 := fun i hi =>
    ElfProgramHeader.ofBytes_congr fun y _ hy => hbytes _ (by omega)
  have h0 := hhead 0 (by decide)
  have h1 := hhead 1 (by decide)
  refine ⟨⟨?_, ?_, ?_, ?_, ?_⟩, ?_, ?_, ?_, ?_, ?_⟩ <;> simp only [hsize, h0, h1]
  case refine_3 | refine_8 => constructor <;> decide
  all_goals decide

set_option maxRecDepth 4000 in
/-- A file with these bytes is made and loaded, both segments of it. -/
theorem elf_load_faithful_small : ∃ (v : Volume) (I : Inode) (w : World) (x : ElfExecutable),
    elfLoad v (fun _ => 0) 0 (Slab.start (fun _ => 0) fun _ => {}) ⟨0, ⟨none, 0, 0, 0⟩, ⟨none, 0, 0, 0⟩⟩
        = .ok (0, w, x)
      ∧ (∀ c, (x.segment c).page ≠ none) ∧ x.Faithful v I w (.ofBytes (v.readAt I.index)) := by
  obtain ⟨v, I, hv, hp, hsize, hbytes⟩ := exists_file smallElf (by decide) (by decide)
  have hlt : I.size < maxSize := by rw [hsize]; decide
  have hstart : ∃ fl fc cp, Slab.Inv (Slab.start (fun _ => 0) fun _ => {}) fl fc cp :=
    ⟨fun _ => [], _, _, Slab.inv_start _ _ _⟩
  have hheader : ElfHeader.ofBytes (v.readAt I.index) = smallHeader :=
    ElfHeader.ofBytes_congr fun y _ hy => hbytes y (Nat.lt_trans hy (by decide))
  obtain ⟨htext, hdata⟩ := smallHeader_describable hsize hbytes
  obtain ⟨⟨rs, m, w₁⟩, hread, hr₁⟩ := pageRead_room (fun _ => 0) 0 (fun _ => 0) hv hp hlt hstart
    (show 52 ≤ _ by decide) (k := 6) (Buddy.room_init.mono (by decide))
  obtain ⟨hrs, hm, hkept, -⟩ := pageRead_spec hv hp hlt hstart (by decide) hread
  have hmin : min 52 (I.size - 0) = 52 := by rw [hsize]; decide
  rw [hmin] at hrs hm
  have hm : ElfHeader.ofBytes m = smallHeader := (ElfHeader.ofBytes_congr fun y _ hy => by
    rw [hm y hy, Nat.zero_add]).trans hheader
  obtain ⟨w₂, text, hloop, hw₂, hr₂⟩ := elfLoadLoop_room (k := 3) (fun _ => 0) 1 hv hp hlt hkept.inv htext
    (x := ⟨0, ⟨none, 0, 0, 0⟩, ⟨none, 0, 0, 0⟩⟩) rfl hr₁
  obtain ⟨w₃, data, hloop₃, -, -⟩ := elfLoadLoop_room (k := 0) (fun _ => 0) 0 hv hp hlt hw₂ hdata
    (x := ElfExecutable.setSegment ⟨0, ⟨none, 0, 0, 0⟩, ⟨none, 0, 0, 0⟩⟩ .text text) rfl hr₂
  have hload : elfLoad v (fun _ => 0) 0 (Slab.start (fun _ => 0) fun _ => {})
      ⟨0, ⟨none, 0, 0, 0⟩, ⟨none, 0, 0, 0⟩⟩ = .ok (0, w₃, ⟨smallHeader.entryPoint, text, data⟩) := by
    unfold elfLoad
    simp only [hread, hm, hrs, bind, Except.bind]
    rw [if_neg (by decide)]
    exact hloop.trans hloop₃
  have hf := (elf_load_faithful hv hp hlt hstart hload).2
  refine ⟨v, I, w₃, _, hload, fun c => ?_, hf⟩
  rw [hheader] at hf
  cases c with
  | text => exact (hf.segments .text).page_ne_none (by decide) htext.part
  | data => exact (hf.segments .data).page_ne_none (by decide) hdata.part

end Cyanurus
