import Cyanurus.Proc.Dispatch

/-!
# Descriptors

The calls of `process.c` that fill and empty the slots of a descriptor table. A slot names
an open file, which counts the slots that name it; a file of a pipe is one of its two ends,
as the access mode in its flags says, and the pipe counts the slots of each end.

What `process_open` learns from the file system, and `process_exec` from the program, are
arguments here.
-/

namespace Cyanurus

namespace Kernel

def oCreat : Nat := 0o100
def oAppend : Nat := 0o2000
def oNonblock : Nat := 0o4000
def oDsync : Nat := 0o10000
def oAsync : Nat := 0o20000
def oDirect : Nat := 0o200000
def oNoatime : Nat := 0o1000000
def oCloexec : Nat := 0o2000000
def oSync : Nat := 0o4010000

def fileStatusFlags : Nat :=
  oAppend ||| oAsync ||| oDirect ||| oDsync ||| oNoatime ||| oNonblock ||| oSync

def pipe2Flags : Nat := oCloexec ||| oDirect ||| oNonblock

def fdCloexec : Nat := 1

def enoent : Int := -2
def ebadf : Int := -9
def eisdir : Int := -21
def emfile : Int := -24

end Kernel

open Kernel in
/-- `FILE_FOR_READ` -/
def File.forRead (F : File) : Bool :=
  F.flags &&& oAccmode == oRdwr || F.flags &&& oAccmode == oRdonly

open Kernel in
/-- `FILE_FOR_WRITE` -/
def File.forWrite (F : File) : Bool :=
  F.flags &&& oAccmode == oRdwr || F.flags &&& oAccmode == oWronly

namespace Kernel

/-! ## Slots -/

/-- The slot of a descriptor, if it is in range. -/
def slotOf (fd : Int) : Option (Fin maxFdSize) :=
  if h : 0 ≤ fd ∧ fd < maxFdSize then some ⟨fd.toNat, by omega⟩ else none

/-- What `p->files[i]` points to. -/
def slot (k : Kernel) (p : Nat) (i : Fin maxFdSize) : Option Nat :=
  (k.processes.get p).bind fun P => P.files.get i

def setSlot (k : Kernel) (p : Nat) (i : Fin maxFdSize) (file : Option Nat) : Kernel :=
  k.update p fun P => { P with files := P.files.set i file i.isLt }

/-- `bitset_add` and `bitset_remove` on `p->close_on_exec`. -/
def setCloexec (k : Kernel) (p : Nat) (i : Fin maxFdSize) (marked : Bool) : Kernel :=
  k.update p fun P => { P with closeOnExec := P.closeOnExec.set i marked i.isLt }

/-- `if (flags & O_CLOEXEC) bitset_add(p->close_on_exec, i)` -/
def markCloexec (k : Kernel) (p : Nat) (i : Fin maxFdSize) (flags : Nat) : Kernel :=
  if flags &&& oCloexec ≠ 0 then k.setCloexec p i true else k

def setFile (k : Kernel) (file : Nat) (f : File → File) : Kernel :=
  { k with files := k.files.modify file f }

/-- `get_file`, with the slot. -/
def getFile (k : Kernel) (p : Nat) (fd : Int) : Option (Fin maxFdSize × Nat) := do
  let i ← slotOf fd
  let file ← k.slot p i
  some (i, file)

/-- The first empty slot from `from` on. -/
def freeSlot (k : Kernel) (p : Nat) (start : Nat) : Option (Fin maxFdSize) :=
  (List.finRange maxFdSize).find? fun i => decide (start ≤ i) && (k.slot p i).isNone

/-- `alloc_file`: the slot, the new file in it; `none` for `-EMFILE`. -/
def allocFile (k : Kernel) (p : Nat) : Option (Fin maxFdSize × Nat × Kernel) :=
  (k.freeSlot p 0).map fun i =>
    (i, k.files.next, { k with files := k.files.alloc ⟨.unused, 0, 0, 1⟩ }.setSlot p i k.files.next)

/-! ## Opening and closing -/

/-- `process_close` of a slot that is in use. -/
def closeSlot (k : Kernel) (p : Nat) (i : Fin maxFdSize) (file : Nat) : Except Halt Kernel := do
  let k ← k.releaseFile file
  .ok ((k.setSlot p i none).setCloexec p i false)

def processClose (k : Kernel) (p : Nat) (fd : Int) : Except Halt (Int × Kernel) :=
  match k.getFile p fd with
  | none => .ok (ebadf, k)
  | some (i, file) => do
      let k ← k.closeSlot p i file
      .ok (0, k)

/-- A call that fails closes the descriptor it has begun with. -/
def abandon (k : Kernel) (p : Nat) (fd : Fin maxFdSize) (r : Int) : Except Halt (Int × Kernel) := do
  let (_, k) ← k.processClose p fd
  .ok (r, k)

/-- `process_open`. `created` is the result of `fs_create`, `found` the dentry of the path and
whether it is a directory. -/
def processOpen (k : Kernel) (p flags : Nat) (created : Int) (found : Option (Nat × Bool)) :
    Except Halt (Int × Kernel) :=
  match k.allocFile p with
  | none => .ok (emfile, k)
  | some (fd, file, k) =>
    let status := flags &&& (fileStatusFlags ||| oAccmode)
    let k := k.setFile file fun F => { F with flags := status }
    if flags &&& oCreat ≠ 0 ∧ created < 0 then k.abandon p fd created
    else
      match found with
      | none => k.abandon p fd enoent
      | some (dentry, isDir) =>
        if File.forWrite ⟨.unused, status, 0, 1⟩ ∧ isDir then k.abandon p fd eisdir
        else
          let k := k.setFile file fun F => { F with type := .inode dentry }
          .ok (fd, k.markCloexec p fd flags)

/-! ## Duplicating -/

/-- `countup_file(file); p->files[i] = file;` -/
def share (k : Kernel) (p : Nat) (i : Fin maxFdSize) (file flags : Nat) : Except Halt Kernel := do
  let k ← k.countupFile file
  .ok ((k.markCloexec p i flags).setSlot p i file)

def processDupfd (k : Kernel) (p : Nat) (fd start : Int) (flags : Nat) : Except Halt (Int × Kernel) :=
  match k.getFile p fd with
  | none => .ok (ebadf, k)
  | some (_, file) =>
    match slotOf start with
    | none => .ok (einval, k)
    | some start =>
      match k.freeSlot p start with
      | none => .ok (emfile, k)
      | some i => do
          let k ← k.share p i file flags
          .ok (i, k)

/-- `if (process->files[newfd]) process_close(newfd);` and the file goes there. -/
def replace (k : Kernel) (p : Nat) (i : Fin maxFdSize) (file flags : Nat) :
    Except Halt (Int × Kernel) := do
  let (_, k) ← k.processClose p i
  let k ← k.share p i file flags
  .ok (i, k)

def processDup2 (k : Kernel) (p : Nat) (oldfd newfd : Int) : Except Halt (Int × Kernel) :=
  match k.getFile p oldfd with
  | none => .ok (ebadf, k)
  | some (_, file) =>
    match slotOf newfd with
    | none => .ok (ebadf, k)
    | some i => if oldfd = newfd then .ok (newfd, k) else k.replace p i file 0

def processDup3 (k : Kernel) (p : Nat) (oldfd newfd : Int) (flags : Nat) :
    Except Halt (Int × Kernel) :=
  match k.getFile p oldfd with
  | none => .ok (ebadf, k)
  | some (_, file) =>
    match slotOf newfd with
    | none => .ok (ebadf, k)
    | some i => if oldfd = newfd then .ok (einval, k) else k.replace p i file flags

/-! ## Pipes -/

/-- The file becomes an end of a pipe. -/
def makeEnd (k : Kernel) (file pipe flags : Nat) : Kernel :=
  k.setFile file fun F => { F with type := .pipe pipe, flags }

/-- `process_pipe2`; the descriptors that it stores in `pipefd` are returned beside the
result. -/
def processPipe2 (k : Kernel) (p flags : Nat) :
    Except Halt (Int × Option (Fin maxFdSize × Fin maxFdSize) × Kernel) :=
  if flags &&& (2 ^ 32 - 1 - pipe2Flags) ≠ 0 then .ok (einval, none, k)
  else
    match k.allocFile p with
    | none => .ok (emfile, none, k)
    | some (rfd, rfile, k) =>
      match k.allocFile p with
      | none => do
          let (r, k) ← k.abandon p rfd emfile
          .ok (r, none, k)
      | some (wfd, wfile, k) =>
        let pipe := k.pipes.next
        let k := { k with pipes := k.pipes.alloc ⟨1, 1⟩ }
        let k := k.makeEnd rfile pipe (oRdonly ||| oAppend ||| (flags &&& pipe2Flags))
        let k := k.makeEnd wfile pipe (oWronly ||| oAppend ||| (flags &&& pipe2Flags))
        .ok (0, some (rfd, wfd), (k.markCloexec p rfd flags).markCloexec p wfd flags)

/-! ## Flags -/

/-- The value that `bitset_test` gives for a slot. -/
def cloexec (k : Kernel) (p : Nat) (i : Fin maxFdSize) : Bool :=
  (k.processes.get p).any fun P => P.closeOnExec.get i

def processFcntl64 (k : Kernel) (p : Nat) (fd cmd : Int) (arg : Nat) : Except Halt (Int × Kernel) :=
  match k.getFile p fd with
  | none => .ok (ebadf, k)
  | some (i, file) =>
    match cmd with
    | 0 => k.processDupfd p fd (BitVec.ofNat 32 arg).toInt 0
    | 1 => .ok (if k.cloexec p i then fdCloexec else 0, k)
    | 2 => .ok (0, k.setCloexec p i (arg &&& fdCloexec ≠ 0))
    | 3 =>
      match k.files.get file with
      | none => .error .fault
      | some F => .ok ((F.flags &&& (fileStatusFlags ||| oAccmode) : Nat), k)
    | 4 => .ok (0, k.setFile file fun F =>
      { F with flags := (arg &&& fileStatusFlags) ||| (F.flags &&& oAccmode) })
    | _ => .ok (einval, k)

end Kernel

end Cyanurus
