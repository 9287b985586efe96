import Cyanurus.Lib.Store
import Cyanurus.Lib.Bytes
import Cyanurus.Mem.Buddy

/-!
# Processes, open files and wait queues

The data of `process.c` and the operations that do not return to user mode by themselves.
Objects that the kernel allocates are named by numbers that are never used again; the
intrusive lists are lists of names, with the element that `list_add` put in last at the
front. What the memory-management unit does for a process is not part of this module.
-/

namespace Cyanurus

/-! ## Signal sets -/

/-- `sigset_t`: signal `n` is bit `n - 1` of the two words. -/
abbrev Sigset := BitVec 64

def nsig : Nat := 65

def sigaddset (set : Sigset) (signum : Nat) : Sigset :=
  if signum < 1 ∨ signum ≥ nsig then set else set ||| 1#64 <<< (signum - 1)

def sigdelset (set : Sigset) (signum : Nat) : Sigset :=
  if signum < 1 ∨ signum ≥ nsig then set else set &&& ~~~(1#64 <<< (signum - 1))

/-- `sigpeekset`: the lowest signal of the set, 0 if it is empty. -/
def sigpeekset (set : Sigset) : Nat :=
  match (List.range 64).find? fun i => set.getLsbD i with
  | some i => i + 1
  | none => 0

/-! ## The structures -/

/-- `struct process_context` -/
structure ProcessContext where
  cpsr : Nat
  r : Vector Nat 13
  sp : Nat
  lr : Nat
  pc : Nat
deriving DecidableEq, Repr

def ProcessContext.zero : ProcessContext := ⟨0, Vector.replicate 13 0, 0, 0, 0⟩

/-- `struct k_sigaction`; a handler is an address, or `SIG_DFL`, `SIG_IGN`. -/
structure KSigaction where
  handler : Nat
  flags : Nat
  restorer : Nat
  mask : Sigset
deriving DecidableEq, Repr

def sigDfl : Nat := 0
def sigIgn : Nat := 1

/-- `struct process_signal`: `actions` has `NSIG - 1` entries, so none for signal 64. -/
structure ProcessSignal where
  mask : Sigset
  pending : Sigset
  actions : Vector KSigaction 64
deriving DecidableEq, Repr

inductive ProcessState where
  | ready
  | blocked
  | dead
deriving DecidableEq, Repr

/-- The wait queues of the kernel. -/
inductive Waitq where
  | child
  | ttyRead
  | ttyWrite
  | readers (pipe : Nat)
  | writers (pipe : Nat)
deriving DecidableEq, Repr

/-- Where a suspended process goes on: in the loop of `process_wait`, or in a call that
sleeps on another queue. -/
inductive KernelCall where
  | wait
  | other
deriving DecidableEq, Repr

def maxFdSize : Nat := 32

/-- `struct process` -/
structure Process where
  id : Nat
  parent : Nat
  state : ProcessState
  exitStatus : Int
  children : List Nat
  context : ProcessContext
  suspend : Option KernelCall
  files : Vector (Option Nat) maxFdSize
  closeOnExec : Vector Bool maxFdSize
  signal : ProcessSignal
deriving DecidableEq, Repr

/-- The type of a `struct file` with the member of the union that it selects. -/
inductive FileType where
  | unused
  | tty
  | inode (dentry : Nat)
  | pipe (pipe : Nat)
deriving DecidableEq, Repr

/-- `struct file` -/
structure File where
  type : FileType
  flags : Nat
  offset : Nat
  count : Nat
deriving DecidableEq, Repr

/-- `struct pipe`, without its buffer. -/
structure Pipe where
  readers : Nat
  writers : Nat
deriving DecidableEq, Repr

/-- The variables of `process.c`, with the objects they lead to. -/
structure Kernel where
  processes : Store Process
  allProcesses : List Nat
  runQueue : List Nat
  currentProcess : Option Nat
  maxId : Nat
  waitqs : Waitq → List Nat
  files : Store File
  pipes : Store Pipe

/-! ## Sleeping and waking -/

namespace Kernel

/-- Change a field of a process. -/
def update (k : Kernel) (p : Nat) (f : Process → Process) : Kernel :=
  { k with processes := k.processes.modify p f }

/-- `process_sleep` of process `p` in the call `call`, up to `system_suspend`. -/
def processSleep (k : Kernel) (p : Nat) (q : Waitq) (call : KernelCall) : Kernel :=
  { k.update p fun P => { P with state := .blocked, suspend := some call } with
    waitqs := Function.update k.waitqs q (p :: k.waitqs q) }

def processWake (k : Kernel) (q : Waitq) : Bool × Kernel :=
  match k.waitqs q with
  | [] => (false, k)
  | p :: rest =>
    (true, { k.update p fun P => { P with state := .ready } with
      waitqs := Function.update k.waitqs q rest })

/-- `while (process_wake(q));` for at most `n` entries. -/
def wakeAll (q : Waitq) : Nat → Kernel → Kernel
  | 0, k => k
  | n + 1, k =>
    match k.processWake q with
    | (true, k) => wakeAll q n k
    | (false, k) => k

/-! ## Open files -/

def oAccmode : Nat := 0o10000003
def oRdonly : Nat := 0
def oWronly : Nat := 1
def oRdwr : Nat := 2

/-- The end of `pipe_release`: the pipe goes when both sides are closed. -/
def pipeDrop (k : Kernel) (pipe readers writers : Nat) : Kernel :=
  if readers = 0 ∧ writers = 0 then { k with pipes := k.pipes.free pipe } else k

def pipeRelease (k : Kernel) (pipe flags : Nat) : Except Halt Kernel :=
  match k.pipes.get pipe with
  | none => .error .fault
  | some ⟨readers, writers⟩ =>
    if flags &&& oAccmode = oRdonly then
      if readers = 0 then .error .bug
      else
        let k := { k with pipes := k.pipes.modify pipe fun _ => ⟨readers - 1, writers⟩ }
        let q := Waitq.writers pipe
        .ok ((if readers - 1 = 0 then wakeAll q (k.waitqs q).length k else k).pipeDrop pipe
          (readers - 1) writers)
    else if flags &&& oAccmode = oWronly then
      if writers = 0 then .error .bug
      else
        let k := { k with pipes := k.pipes.modify pipe fun _ => ⟨readers, writers - 1⟩ }
        let q := Waitq.readers pipe
        .ok ((if writers - 1 = 0 then wakeAll q (k.waitqs q).length k else k).pipeDrop pipe
          readers (writers - 1))
    else .error .unknown

/-- The `switch` of `release_file`. -/
def releaseType (k : Kernel) (flags : Nat) : FileType → Except Halt Kernel
  | .pipe pipe => k.pipeRelease pipe flags
  | _ => .ok k

def releaseFile (k : Kernel) (file : Nat) : Except Halt Kernel :=
  match k.files.get file with
  | none => .error .fault
  | some F =>
    if F.count = 0 then .error .bug
    else do
      let k := { k with files := k.files.modify file fun F => { F with count := F.count - 1 } }
      let k ← k.releaseType F.flags F.type
      if F.count - 1 = 0 then .ok { k with files := k.files.free file } else .ok k

def pipeCountup (k : Kernel) (pipe flags : Nat) : Except Halt Kernel :=
  if flags &&& oAccmode = oRdonly then
    .ok { k with pipes := k.pipes.modify pipe fun P => { P with readers := P.readers + 1 } }
  else if flags &&& oAccmode = oWronly then
    .ok { k with pipes := k.pipes.modify pipe fun P => { P with writers := P.writers + 1 } }
  else .error .unknown

def countupFile (k : Kernel) (file : Nat) : Except Halt Kernel :=
  match k.files.get file with
  | none => .error .fault
  | some F =>
    let k := { k with files := k.files.modify file fun F => { F with count := F.count + 1 } }
    match F.type with
    | .pipe pipe => k.pipeCountup pipe F.flags
    | _ => .ok k

/-! ## Creating processes -/

/-- A zeroed `struct process` with its number. -/
def newProcess (id : Nat) : Process where
  id := id
  parent := 0
  state := .ready
  exitStatus := 0
  children := []
  context := .zero
  suspend := none
  files := Vector.replicate _ none
  closeOnExec := Vector.replicate _ false
  signal := ⟨0, 0, Vector.replicate _ ⟨0, 0, 0, 0⟩⟩

def processAlloc (k : Kernel) : Nat × Kernel :=
  (k.processes.next,
    { k with
      processes := k.processes.alloc (newProcess k.maxId)
      maxId := k.maxId + 1
      allProcesses := k.processes.next :: k.allProcesses })

/-- `countup_file` for every descriptor of a table. -/
def countupFiles (k : Kernel) (files : List (Option Nat)) : Except Halt Kernel :=
  files.foldlM (fun k file => match file with
    | some file => k.countupFile file
    | none => .ok k) k

/-- The new process of `process_fork` by `P`, which is named `p`: it gets the context, with 0
for the result, the files and the signals of its parent. The marks for `exec` are not copied. -/
def forkChild (p : Nat) (P C : Process) : Process :=
  { C with
    parent := p
    context := { P.context with r := P.context.r.set 0 0 }
    files := P.files
    signal := P.signal }

/-- The child is put in front of the children of its parent. -/
def forkProcess (k : Kernel) (p : Nat) (P : Process) : Kernel :=
  let (c, k) := k.processAlloc
  let k := k.update p fun P => { P with children := c :: P.children }
  k.update c (forkChild p P)

/-- `process_fork` by process `p` -/
def processFork (k : Kernel) (p : Nat) : Except Halt (Nat × Kernel) :=
  match k.processes.get p with
  | none => .error .fault
  | some P => do
      let k ← (k.forkProcess p P).countupFiles P.files.toList
      .ok (k.maxId - 1, k)

/-- `process_create`, with the context of the program that was loaded: the terminal is
open at the descriptors 0, 1 and 2. -/
def processCreate (k : Kernel) (sp pc : Nat) : Kernel :=
  let (p, k) := k.processAlloc
  let tty := k.files.next
  let k := { k with files := k.files.alloc ⟨.tty, oRdwr, 0, 3⟩ }
  k.update p fun P =>
    { P with
      parent := p
      context := { P.context with cpsr := 0x10, sp, pc }
      files := ((P.files.set 0 (some tty)).set 1 (some tty)).set 2 (some tty) }

/-! ## Ending processes -/

/-- The loop of `process_exit` over the descriptors. -/
def releaseFiles (k : Kernel) (p : Nat) : List (Fin maxFdSize) → Except Halt Kernel
  | [] => .ok k
  | i :: is =>
    match (k.processes.get p).bind fun P => P.files.get i with
    | none => releaseFiles k p is
    | some file => do
        let k := k.update p fun P => { P with files := P.files.set i none }
        let k ← k.releaseFile file
        releaseFiles k p is

/-- `process_exit` of process `p`. When it is the last process the machine is told to shut
down, which changes nothing here. -/
def processExit (k : Kernel) (p : Nat) (status : Int) : Except Halt Kernel := do
  let k := k.update p fun P => { P with state := .dead, exitStatus := status }
  let k ← k.releaseFiles p (List.finRange maxFdSize)
  .ok (k.processWake .child).2

/-- `find_toplevel_process` -/
def findToplevelProcess (k : Kernel) : Option Nat :=
  k.allProcesses.find? fun p => (k.processes.get p).any fun P => P.parent == p

/-- `child->parent = parent` for every child in the list. -/
def reparent (k : Kernel) (parent : Nat → Nat) (children : List Nat) : Kernel :=
  children.foldl (fun k c => k.update c fun C => { C with parent := parent c }) k

/-- The children of a process that is destroyed, dead or not, go to the front of the
children of the top-level process. -/
def handOver (k : Kernel) (children : List Nat) : Kernel :=
  if children = [] then k
  else
    match k.findToplevelProcess with
    | some t => (k.reparent (fun _ => t) children).update t fun T =>
      { T with children := children ++ T.children }
    | none => k.reparent id children

/-- `process_destroy(p)`, called by `w` for one of its children. -/
def processDestroy (k : Kernel) (w p : Nat) : Except Halt Kernel :=
  match k.processes.get w, k.processes.get p with
  | some W, some P =>
    if W.id = P.id then .error .bug
    else
      let k := { k.update w fun W => { W with children := W.children.erase p } with
        runQueue := k.runQueue.erase p
        allProcesses := k.allProcesses.erase p }
      let k := k.handOver P.children
      .ok { k with processes := k.processes.free p }
  | _, _ => .error .fault

/-! ## Waiting and switching -/

def isDead (k : Kernel) (p : Nat) : Bool := (k.processes.get p).any fun P => P.state == .dead

def echild : Int := -10

/-- The value of a call, `args[0]` of the context. -/
def setResult (k : Kernel) (p : Nat) (r : Int) : Kernel :=
  k.update p fun P =>
    { P with context := { P.context with r := P.context.r.set 0 (BitVec.ofInt 32 r).toNat } }

/-- What `process_wait` returns, with what it has stored at `status` if it got there. -/
structure Waited where
  result : Int
  status : Option Int

/-- One round of the loop of `process_wait`: a dead child is destroyed, its status stored and
its number returned, or the process goes to sleep. -/
def processWaitLoop (k : Kernel) (p : Nat) : Except Halt (Option Waited × Kernel) :=
  match k.processes.get p with
  | none => .error .fault
  | some P =>
    match P.children.find? k.isDead with
    | none => .ok (none, k.processSleep p .child .wait)
    | some c =>
      match k.processes.get c with
      | none => .error .fault
      | some C => do
          let k ← k.processDestroy p c
          .ok (some ⟨C.id, some C.exitStatus⟩, k)

def processWait (k : Kernel) (p : Nat) : Except Halt (Option Waited × Kernel) :=
  match k.processes.get p with
  | none => .error .fault
  | some P => if P.children = [] then .ok (some ⟨echild, none⟩, k) else k.processWaitLoop p

/-- `process_schedule`: the ready processes, the first of `all_processes` last. -/
def processSchedule (k : Kernel) : Kernel :=
  { k with runQueue := k.allProcesses.foldl (fun queue p =>
      if (k.processes.get p).any fun P => P.state == .ready then p :: queue else queue) k.runQueue }

/-- `process_dequeue`, which leaves the machine idle when the queue is empty. -/
def processDequeue (k : Kernel) : Kernel :=
  match k.runQueue with
  | p :: rest => { k with runQueue := rest, currentProcess := some p }
  | [] => { k with currentProcess := none }

/-- `process_switch` up to the dispatch of the new `current_process`, or to `system_idle`. -/
def processSwitch (k : Kernel) : Kernel :=
  (if k.runQueue = [] then k.processSchedule else k).processDequeue

/-- The kernel before the first process is created. -/
def empty : Kernel := ⟨.empty, [], [], none, 1, fun _ => [], .empty, .empty⟩

end Kernel

end Cyanurus
