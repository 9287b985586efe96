import Cyanurus.Sys.UserAccess
import Cyanurus.Proc.Process

/-!
# Signals and dispatch

`process_dispatch` resumes a suspended process, ends one with a fatal signal, or hands a
context to user mode, after it has put a frame for a signal handler on the user stack.
User memory is passed along beside the kernel's data: it belongs to the process, which
writes what it likes between two entries to the kernel.

A store through a stack pointer that is not in the user range goes to memory of the
kernel, as does the action of signal 64, for which the table has no entry. What happens
then depends on what lies there: such a step is `stray`.
-/

namespace Cyanurus

def sigkill : Nat := 9
def sigchld : Nat := 17
def sigstop : Nat := 19
def sigurg : Nat := 23
def sigwinch : Nat := 28

def esrch : Int := -3

/-- `sizeof(struct process_context)` -/
def contextSize : Nat := 68

/-! ## Frames on the user stack -/

/-- The words of a context in the order of the structure. -/
def ProcessContext.words (c : ProcessContext) : List Nat :=
  c.cpsr :: c.r.toList ++ [c.sp, c.lr, c.pc]

def Sigset.words (set : Sigset) : List Nat := [set.toNat % 2 ^ 32, set.toNat / 2 ^ 32]

/-- Store 32-bit words from `a` on. -/
def storeWords (m : Bytes) (a : Nat) : List Nat → Bytes
  | [] => m
  | w :: ws => storeWords (m.store 4 a w) (a + 4) ws

/-- The context in the 68 bytes at `a`. -/
def loadContext (m : Bytes) (a : Nat) : ProcessContext where
  cpsr := m.load 4 a
  r := Vector.ofFn fun i => m.load 4 (a + 4 + 4 * i)
  sp := m.load 4 (a + 56)
  lr := m.load 4 (a + 60)
  pc := m.load 4 (a + 64)

/-- The address that `push_to_stack` stores `size` bytes at. -/
def pushAddress (sp size : Nat) : Nat := ((sp + 2 ^ 32 - size) % 2 ^ 32) / 8 * 8

/-- `push_to_stack` of 32-bit words; `none` if they do not go to user memory. -/
def pushToStack (m : Bytes) (sp : Nat) (words : List Nat) : Option (Nat × Bytes) :=
  let signalSp := pushAddress sp (4 * words.length)
  if InUser (signalSp, 4 * words.length) then some (signalSp, storeWords m signalSp words) else none

/-- The frame of a handler: the context and, below it, the mask. -/
def pushFrame (m : Bytes) (context : ProcessContext) (mask : Sigset) : Option (Nat × Bytes) := do
  let (signalSp, m) ← pushToStack m context.sp context.words
  pushToStack m signalSp mask.words

/-- The value that `pop_from_stack` returns. -/
def popAddress (sp size : Nat) : Nat := ((sp + size + 7) % 2 ^ 32) / 8 * 8

/-! ## Dispatch -/

/-- How `process_dispatch` ends. -/
inductive Dispatch where
  /-- `system_resume` of a suspended call. -/
  | resume (call : KernelCall)
  /-- The process was ended by a signal; `process_switch` follows. -/
  | exited
  /-- `system_dispatch` -/
  | user (context : ProcessContext)
  /-- The frame of a handler was stored outside user memory. -/
  | stray

namespace Kernel

/-- The action for a signal; `beyond` is what lies behind the table, where the action of
signal 64 is looked up. -/
def action (P : Process) (beyond : KSigaction) (sig : Nat) : KSigaction :=
  P.signal.actions[sig]?.getD beyond

theorem registers_pos : 0 < 13 := by decide

/-- The context and the mask that a handler starts with. -/
def enterHandler (P : Process) (ksa : KSigaction) (sig signalSp : Nat) : Process :=
  { P with
    context := { ProcessContext.zero with
      r := ProcessContext.zero.r.set 0 sig registers_pos
      cpsr := 0x10
      sp := signalSp
      lr := ksa.restorer
      pc := ksa.handler }
    signal := { P.signal with mask := sigaddset (P.signal.mask ||| ksa.mask) sig } }

/-- `sigdelset(&current_process->signal.pending, sig)` -/
def clearPending (P : Process) (sig : Nat) : Process :=
  { P with signal := { P.signal with pending := sigdelset P.signal.pending sig } }

/-- The signals that are ignored by default. -/
def ignoredByDefault (sig : Nat) : Bool := sig == sigchld || sig == sigurg || sig == sigwinch

/-- The signal that a dispatch acts on, 0 for none. -/
def nextSignal (P : Process) : Nat := sigpeekset (P.signal.pending &&& ~~~P.signal.mask)

/-- `process_dispatch` of `p`, with its user memory. -/
def processDispatch (k : Kernel) (p : Nat) (m : Bytes) (beyond : KSigaction) :
    Except Halt (Dispatch × Kernel × Bytes) :=
  match k.processes.get p with
  | none => .error .fault
  | some P =>
    match P.suspend with
    | some call => .ok (.resume call, k.update p fun P => { P with suspend := none }, m)
    | none =>
      let sig := nextSignal P
      let ksa := action P beyond sig
      if sig = 0 then .ok (.user P.context, k, m)
      else if ksa.handler = sigDfl then
        if ignoredByDefault sig then
          .ok (.user P.context, k.update p fun P => clearPending P sig, m)
        else do
          let k ← k.processExit p (sig % 0x80)
          .ok (.exited, k, m)
      else if ksa.handler = sigIgn then
        .ok (.user P.context, k.update p fun P => clearPending P sig, m)
      else
        match pushFrame m P.context P.signal.mask with
        | none => .ok (.stray, k, m)
        | some (signalSp, m) => .ok (.user (enterHandler P ksa sig signalSp).context,
            k.update p fun P => clearPending (enterHandler P ksa sig signalSp) sig, m)

def findProcess (k : Kernel) (pid : Int) : Option Nat :=
  k.allProcesses.find? fun p => (k.processes.get p).any fun P => (P.id : Int) == pid

def processKill (k : Kernel) (pid sig : Int) : Int × Kernel :=
  if sig < 1 ∨ sig ≥ nsig then (einval, k)
  else if pid < 1 then (esrch, k)
  else
    match k.findProcess pid with
    | none => (esrch, k)
    | some p =>
      (0, k.update p fun P =>
        { P with signal := { P.signal with pending := sigaddset P.signal.pending sig.toNat } })

variable {p : Nat} {k k' : Kernel} {beyond : KSigaction} {P : Process} {d : Dispatch} {m m' : Bytes}
  {r : Int}

theorem findProcess_get {pid : Int} (h : k.findProcess pid = some p) :
    ∃ P, k.processes.get p = some P := by
  have hany := List.find?_some h
  cases hp : k.processes.get p with
  | none =>
    rw [hp] at hany
    cases hany
  | some P => exact ⟨P, rfl⟩

/-- `process_kill` is refused, or adds the signal to the pending ones of a process. -/
theorem processKill_cases (k : Kernel) (pid sig : Int) : (k.processKill pid sig).2 = k
    ∨ ∃ p P, k.processes.get p = some P ∧ k.processKill pid sig = (0, k.update p fun P =>
      { P with signal := { P.signal with pending := sigaddset P.signal.pending sig.toNat } }) := by
  unfold processKill
  split
  · exact .inl rfl
  split
  · exact .inl rfl
  cases hf : k.findProcess pid with
  | none => exact .inl rfl
  | some p =>
    obtain ⟨P, hP⟩ := findProcess_get hf
    exact .inr ⟨p, P, hP, rfl⟩

/-! ## Calls that change signals and contexts -/

/-- `process_sigaction`; `none` if the action is stored behind the table. -/
def processSigaction (k : Kernel) (p : Nat) (sig : Int) (ksa : Option KSigaction) :
    Option (Int × Kernel) :=
  if sig < 1 ∨ sig ≥ nsig then some (einval, k)
  else if sig = sigkill ∨ sig = sigstop then some (einval, k)
  else
    match ksa with
    | none => some (0, k)
    | some ksa =>
      if h : sig.toNat < 64 then
        let ksa := { ksa with mask := sigdelset (sigdelset ksa.mask sigkill) sigstop }
        some (0, k.update p fun P =>
          { P with signal := { P.signal with actions := P.signal.actions.set sig.toNat ksa } })
      else none

/-- `SIG_BLOCK`, `SIG_UNBLOCK` and `SIG_SETMASK` -/
def processSigprocmask (k : Kernel) (p : Nat) (how : Int) (set : Option Sigset) : Int × Kernel :=
  let mask (f : Sigset → Sigset) := k.update p fun P =>
    { P with signal := { P.signal with mask := f P.signal.mask } }
  match set with
  | none => (0, k)
  | some set =>
    if how = 0 then (0, mask fun old => sigdelset (sigdelset (old ||| set) sigkill) sigstop)
    else if how = 1 then (0, mask fun old => old &&& ~~~set)
    else if how = 2 then (0, mask fun _ => sigdelset (sigdelset set sigkill) sigstop)
    else (einval, k)

/-- `process_sigreturn`: the mask and then the whole context are read from the user stack. -/
def processSigreturn (k : Kernel) (p : Nat) (m : Bytes) : Kernel :=
  k.update p fun P =>
    { P with
      signal := { P.signal with mask := BitVec.ofNat 64 (m.load 8 P.context.sp) }
      context := loadContext m (popAddress P.context.sp 8) }

def argMax : Nat := 4096
def e2big : Int := -7
def eacces : Int := -13

/-- The bytes that the strings and pointers of an argument list take, rounded up. -/
def argTotal (lens : List Nat) : Nat :=
  (4 + 4 * (lens.length + 2) + (lens.map (· + 1)).sum + 7) / 8 * 8

/-- `size` of `prepare_argv_and_envp`: the total as an `int`. -/
def argSize (lens : List Nat) : Int :=
  let size := (argTotal lens : Int).bmod (2 ^ 32)
  if size < 0x100 then 0x100 else size

/-- The descriptors that are marked are closed. -/
def closeMarked (k : Kernel) (p : Nat) : List (Fin maxFdSize) → Except Halt Kernel
  | [] => .ok k
  | i :: is =>
    match (k.processes.get p).bind fun P =>
      if P.closeOnExec.get i then P.files.get i else none with
    | none => closeMarked k p is
    | some file => do
        let k ← k.releaseFile file
        closeMarked (k.update p fun P =>
          { P with
            files := P.files.set i none i.isLt
            closeOnExec := P.closeOnExec.set i false i.isLt }) p is

/-- `SIG_DFL` for every signal that has a handler. -/
def resetHandlers (actions : Vector KSigaction 64) : Vector KSigaction 64 :=
  actions.map fun ksa =>
    if ksa.handler ≠ sigDfl ∧ ksa.handler ≠ sigIgn then { ksa with handler := sigDfl } else ksa

/-- The part of `process_exec` that follows when the program was loaded. -/
def startProgram (k : Kernel) (p sp pc : Nat) : Except Halt Kernel := do
  let k := k.update p fun P =>
    { P with signal := { P.signal with actions := resetHandlers P.signal.actions } }
  let k ← k.closeMarked p (List.finRange maxFdSize)
  .ok (k.update p fun P => { P with context := { ProcessContext.zero with cpsr := 0x10, sp, pc } })

/-- `process_exec` with argument strings of these lengths. `image` is the stack and the entry
point of the program, if `elf_load` accepts the file. A list that is taken for a short one
is copied over the end of its page: `none`. -/
def processExec (k : Kernel) (p : Nat) (lens : List Nat) (image : Option (Nat × Nat)) :
    Except Halt (Option (Int × Kernel)) :=
  if argSize lens > argMax then .ok (some (e2big, k))
  else if argTotal lens > argMax then .ok none
  else
    match image with
    | none => .ok (some (eacces, k))
    | some (sp, pc) => do
        let k ← k.startProgram p sp pc
        .ok (some (0, k))

/-! ## The ways a dispatch ends -/

/-- The next signal ends the process. -/
def fatal (P : Process) (beyond : KSigaction) : Bool :=
  nextSignal P != 0 && (action P beyond (nextSignal P)).handler == sigDfl
    && !ignoredByDefault (nextSignal P)

/-- The next signal is caught. -/
def HasHandler (P : Process) (beyond : KSigaction) : Prop :=
  nextSignal P ≠ 0 ∧ (action P beyond (nextSignal P)).handler ≠ sigDfl
    ∧ (action P beyond (nextSignal P)).handler ≠ sigIgn

theorem HasHandler.not_fatal (h : HasHandler P beyond) :
    fatal P beyond = false := by
  simp [fatal, h.2.1]

/-- `process_dispatch` of a process `P`, named `p`, case by case. -/
inductive Dispatched (k : Kernel) (p : Nat) (P : Process) (m : Bytes) (beyond : KSigaction) :
    Dispatch → Kernel → Bytes → Prop
  | resume {call : KernelCall} : P.suspend = some call →
      Dispatched k p P m beyond (.resume call) (k.update p fun P => { P with suspend := none }) m
  | exited {k' : Kernel} : P.suspend = none → fatal P beyond = true →
      k.processExit p ((nextSignal P : Int) % 0x80) = .ok k' → Dispatched k p P m beyond .exited k' m
  | undisturbed : P.suspend = none → nextSignal P = 0 → fatal P beyond = false →
      Dispatched k p P m beyond (.user P.context) k m
  | ignored : P.suspend = none → nextSignal P ≠ 0 → fatal P beyond = false →
      Dispatched k p P m beyond (.user P.context)
        (k.update p fun P' => clearPending P' (nextSignal P)) m
  | handled {sp : Nat} {m' : Bytes} : P.suspend = none → HasHandler P beyond →
      pushFrame m P.context P.signal.mask = some (sp, m') →
      Dispatched k p P m beyond
        (.user (enterHandler P (action P beyond (nextSignal P)) (nextSignal P) sp).context)
        (k.update p fun P' => clearPending
          (enterHandler P' (action P beyond (nextSignal P)) (nextSignal P) sp) (nextSignal P)) m'
  | stray : P.suspend = none → HasHandler P beyond →
      pushFrame m P.context P.signal.mask = none → Dispatched k p P m beyond .stray k m

theorem processDispatch_cases
    (hp : k.processes.get p = some P)
    (h : k.processDispatch p m beyond = .ok (d, k', m')) : Dispatched k p P m beyond d k' m' := by
  unfold processDispatch at h
  rw [hp] at h
  simp only at h
  cases hs : P.suspend with
  | some call =>
    rw [hs] at h
    cases h
    exact .resume hs
  | none =>
    rw [hs] at h
    by_cases h0 : nextSignal P = 0
    · rw [if_pos h0] at h
      cases h
      exact .undisturbed hs h0 (by simp [fatal, h0])
    rw [if_neg h0] at h
    by_cases hd : (action P beyond (nextSignal P)).handler = sigDfl
    · rw [if_pos hd] at h
      cases hi : ignoredByDefault (nextSignal P) with
      | true =>
        rw [hi] at h
        cases h
        exact .ignored hs h0 (by simp [fatal, hi])
      | false =>
        rw [hi] at h
        obtain ⟨k1, h1, h⟩ := bind_eq_ok h
        cases h
        exact .exited hs (by simp [fatal, h0, hd, hi]) h1
    rw [if_neg hd] at h
    by_cases hign : (action P beyond (nextSignal P)).handler = sigIgn
    · rw [if_pos hign] at h
      cases h
      exact .ignored hs h0 (by simp [fatal, hd])
    rw [if_neg hign] at h
    cases hframe : pushFrame m P.context P.signal.mask with
    | none =>
      rw [hframe] at h
      cases h
      exact .stray hs ⟨h0, hd, hign⟩ hframe
    | some frame =>
      rw [hframe] at h
      cases h
      exact .handled hs ⟨h0, hd, hign⟩ hframe

theorem processDispatch_ok
    (h : k.processDispatch p m beyond = .ok (d, k', m')) :
    ∃ P, k.processes.get p = some P ∧ Dispatched k p P m beyond d k' m' := by
  cases hp : k.processes.get p with
  | none =>
    unfold processDispatch at h
    rw [hp] at h
    cases h
  | some P => exact ⟨P, rfl, processDispatch_cases hp h⟩

/-! ## The calls that change signals -/

theorem processSigaction_cases {sig : Int} {ksa : Option KSigaction}
    (h : k.processSigaction p sig ksa = some (r, k')) : k' = k
      ∨ ∃ (act : KSigaction) (h64 : sig.toNat < 64), ksa = some act ∧ ¬ (sig = sigkill ∨ sig = sigstop)
        ∧ k' = k.update p fun P => { P with signal := { P.signal with
          actions := P.signal.actions.set sig.toNat
            { act with mask := sigdelset (sigdelset act.mask sigkill) sigstop } } } := by
  unfold processSigaction at h
  split at h
  · cases h
    exact .inl rfl
  split at h
  · cases h
    exact .inl rfl
  rename_i hboth
  split at h
  · cases h
    exact .inl rfl
  split at h
  · rename_i act h64
    cases h
    exact .inr ⟨act, h64, rfl, hboth, rfl⟩
  · cases h

theorem processSigprocmask_cases (k : Kernel) (p : Nat) (how : Int) (set : Option Sigset) :
    (k.processSigprocmask p how set).2 = k
      ∨ ∃ mask : Sigset → Sigset, (k.processSigprocmask p how set).2
          = (k.update p fun P => { P with signal := { P.signal with mask := mask P.signal.mask } })
        ∧ ∀ old, (∃ set, mask old = sigdelset (sigdelset set sigkill) sigstop)
          ∨ ∃ set, mask old = old &&& set := by
  unfold processSigprocmask
  cases set with
  | none => exact .inl rfl
  | some set =>
    simp only
    split
    · exact .inr ⟨_, rfl, fun old => .inl ⟨old ||| set, rfl⟩⟩
    split
    · exact .inr ⟨_, rfl, fun old => .inr ⟨~~~set, rfl⟩⟩
    split
    · exact .inr ⟨_, rfl, fun old => .inl ⟨set, rfl⟩⟩
    · exact .inl rfl

/-- An exec is refused, or starts the program. -/
theorem processExec_cases {lens : List Nat} {image : Option (Nat × Nat)}
    (h : k.processExec p lens image = .ok (some (r, k'))) : r < 0 ∧ k' = k
      ∨ ∃ sp pc k₁, (k.update p fun P => { P with
          signal := { P.signal with actions := resetHandlers P.signal.actions } }).closeMarked p
            (List.finRange maxFdSize) = .ok k₁
        ∧ k' = k₁.update p fun P =>
          { P with context := { ProcessContext.zero with cpsr := 0x10, sp, pc } } := by
  unfold processExec at h
  split at h
  · cases h
    exact .inl ⟨by decide, rfl⟩
  split at h
  · cases h
  split at h
  · cases h
    exact .inl ⟨by decide, rfl⟩
  · obtain ⟨_, hstart, h⟩ := bind_eq_ok h
    cases h
    obtain ⟨k₁, hclose, hstart⟩ := bind_eq_ok hstart
    cases hstart
    exact .inr ⟨_, _, k₁, hclose, rfl⟩

end Kernel

end Cyanurus
