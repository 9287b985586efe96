import Cyanurus.Lib.Run
import Cyanurus.Proc.ProcessFrame
import Cyanurus.Proc.Dispatch

/-!
# Waiting for children

The kernel from one dispatch to the next: a process enters the kernel with a call, an
interrupt comes, or a suspended call goes on, and `process_switch` chooses who is next.

All parents that wait share one queue, an exit wakes the one that went to sleep last, and
the children of a process that is destroyed are handed to the top-level process without a
wake-up. So a parent may sleep on while a child of it is dead. **`wait_hears_children`**:
this does not happen in runs where an exit finds its parent awake or first in the queue,
and where dead children are handed over only to a process that is awake.
-/

namespace Cyanurus

open Lts

/-! ## Runs -/

/-- What a process brings to its dispatch: its memory, what lies behind its table of signal
actions, and the registers it has when it enters the kernel again. -/
structure Entry where
  memory : Bytes
  beyond : KSigaction
  context : ProcessContext

/-- The calls of a process. `other` stands for the rest of the calls and for interrupts: it
may change the signals of the process, wake sleepers and put the process to sleep, on
queues other than that of the waiting parents. -/
inductive Call where
  | fork
  | exit (status : Int)
  | wait
  | kill (pid sig : Int)
  | other (signal : ProcessSignal) (wakes : List Waitq) (sleep : Option Waitq)

inductive WaitAct where
  /-- An interrupt while the machine is idle. -/
  | interrupt (wakes : List Waitq)
  /-- The current process is dispatched and goes on with `call`. -/
  | dispatch (entry : Entry) (call : Call)

namespace Kernel

def wakeQueues (k : Kernel) (qs : List Waitq) : Kernel :=
  qs.foldl (fun k q => (k.processWake q).2) k

/-- `process_set_context`, at the entry to the kernel. -/
def setContext (k : Kernel) (p : Nat) (context : ProcessContext) : Kernel :=
  k.update p fun P => { P with context }

def otherCall (k : Kernel) (p : Nat) (signal : ProcessSignal) (wakes : List Waitq)
    (sleep : Option Waitq) : Except Halt Kernel :=
  if .child ∈ wakes ∨ sleep = some .child then .error .unknown
  else
    let k := (k.update p fun P => { P with signal }).wakeQueues wakes
    match sleep with
    | some q => .ok (k.processSleep p q .other)
    | none => .ok k

/-- The end of `syscall_wait4`, unless the process has gone to sleep. -/
def waited (k : Kernel) (p : Nat) : Option Waited → Kernel
  | some r => k.setResult p r.result
  | none => k

def call (k : Kernel) (p : Nat) : Call → Except Halt Kernel
  | .fork => do
      let (r, k) ← k.processFork p
      .ok (k.setResult p r)
  | .exit status => k.processExit p (status % 0x100 * 0x100)
  | .wait => do
      let (r, k) ← k.processWait p
      .ok (k.waited p r)
  | .kill pid sig =>
    let (r, k) := k.processKill pid sig
    .ok (k.setResult p r)
  | .other signal wakes sleep => k.otherCall p signal wakes sleep

/-- What follows a dispatch, up to the next `process_switch`. -/
def proceed (k : Kernel) (p : Nat) (context : ProcessContext) (c : Call) :
    Dispatch → Except Halt Kernel
  | .exited => .ok k
  | .resume .wait => do
      let (r, k) ← k.processWaitLoop p
      .ok (k.waited p r)
  | .resume .other =>
    match c with
    | .other signal wakes sleep => k.otherCall p signal wakes sleep
    | _ => .error .unknown
  | .user _ => (k.setContext p context).call p c
  | .stray => .error .fault

/-- From one dispatch, or idle state, to the next. -/
def waitStep (k : Kernel) : WaitAct → Except Halt Kernel
  | .interrupt wakes =>
    if k.currentProcess = none ∧ .child ∉ wakes then .ok (k.wakeQueues wakes).processSwitch
    else .error .unknown
  | .dispatch entry c =>
    match k.currentProcess with
    | none => .error .unknown
    | some p => do
        let (d, k, _) ← k.processDispatch p entry.memory entry.beyond
        let k ← k.proceed p entry.context c d
        .ok k.processSwitch

/-- The first dispatch. -/
def boot (sp pc : Nat) : Kernel := (empty.processCreate sp pc).processSwitch

end Kernel

/-- Blocked inside `process_wait`. -/
def Process.Waiting (P : Process) : Prop := P.state = .blocked ∧ P.suspend = some .wait

/-- No process that waits has a dead child. -/
def Kernel.HearsChildren (k : Kernel) : Prop :=
  ∀ {p c : Nat} {P C : Process}, k.processes.get p = some P → P.Waiting → c ∈ P.children →
    k.processes.get c = some C → C.state ≠ .dead

/-! ## The invariant -/

/-- Children and parents name each other, and a child is listed once. -/
structure Kernel.Family (k : Kernel) : Prop where
  child : ∀ {p c P}, k.processes.get p = some P → c ∈ P.children →
    ∃ C, k.processes.get c = some C ∧ C.parent = p
  nodup : ∀ {p P}, k.processes.get p = some P → P.children.Nodup

structure Kernel.WaitInv (k : Kernel) : Prop where
  family : k.Family
  hears : k.HearsChildren

/-- The family of the process is the same. -/
structure Process.Kin (P P' : Process) : Prop where
  parent : P'.parent = P.parent
  children : P'.children = P.children

/-- Besides, the process has neither died nor begun to wait. -/
structure Process.Calm (P P' : Process) : Prop extends Process.Kin P P' where
  dead : P'.state = .dead → P.state = .dead
  waiting : P'.Waiting → P.Waiting

theorem Process.Calm.refl (P : Process) : P.Calm P :=
  ⟨⟨rfl, rfl⟩, fun h => h, fun h => h⟩

variable {P P' P'' : Process}

theorem Process.Calm.trans (h : P.Calm P') (h' : P'.Calm P'') :
    P.Calm P'' :=
  ⟨⟨h'.parent.trans h.parent, h'.children.trans h.children⟩, fun hd => h.dead (h'.dead hd),
    fun hw => h.waiting (h'.waiting hw)⟩

theorem Process.Released.calm (h : P.Released P') : P.Calm P' := by
  obtain ⟨state, files, _, hs, rfl⟩ := h
  refine ⟨⟨rfl, rfl⟩, fun hd => ?_, fun hw => ?_⟩
  · rcases hs with rfl | rfl
    · exact hd
    · cases hd
  · rcases hs with rfl | rfl
    · exact hw
    · exact absurd hw.1 (by simp)

/-- The family and the state are the same, and the process has not begun to wait. -/
structure Process.Still (P P' : Process) : Prop extends Process.Kin P P' where
  state : P'.state = P.state
  waiting : P'.Waiting → P.Waiting

theorem Process.Still.refl (P : Process) : P.Still P := ⟨⟨rfl, rfl⟩, rfl, fun h => h⟩

theorem Process.Still.trans (h : P.Still P') (h' : P'.Still P'') :
    P.Still P'' :=
  ⟨⟨h'.parent.trans h.parent, h'.children.trans h.children⟩, h'.state.trans h.state,
    fun hw => h.waiting (h'.waiting hw)⟩

theorem Process.Still.calm (h : P.Still P') : P.Calm P' :=
  ⟨h.toKin, fun hd => h.state ▸ hd, h.waiting⟩

namespace Kernel

/-- All processes are calm. -/
def Calm (k k' : Kernel) : Prop := k.processes.Rel Process.Calm k'.processes

variable {k k' k'' : Kernel} {p c w : Nat} {P C : Process}
  {f : Process → Process} {W P' : Process} {t : Nat} {r : Option Waited}

theorem Calm.of_eq (h : k'.processes = k.processes) : k.Calm k' := by
  unfold Calm
  rw [h]
  exact .refl Process.Calm.refl k.processes

theorem Calm.trans (h : k.Calm k') (h' : k'.Calm k'') : k.Calm k'' :=
  Store.Rel.trans Process.Calm.trans h h'

theorem Released.calm (h : k.Released k') : k.Calm k' := h.rel.mono Process.Released.calm

theorem update_calm (p : Nat) (hf : ∀ P, Process.Calm P (f P)) :
    k.Calm (k.update p f) := Store.Rel.modify Process.Calm.refl p hf

theorem Family.kin (hf : k.Family) (h : k.processes.Rel Process.Kin k'.processes) :
    k'.Family := by
  refine ⟨fun {p c P} hp hc => ?_, fun {p P} hp => ?_⟩
  · obtain ⟨P₀, hp₀, hP⟩ := h.back hp
    rw [hP.children] at hc
    obtain ⟨C, hget, hpar⟩ := hf.child hp₀ hc
    obtain ⟨C', hget', hC⟩ := h.forth hget
    exact ⟨C', hget', hC.parent.trans hpar⟩
  · obtain ⟨P₀, hp₀, hP⟩ := h.back hp
    rw [hP.children]
    exact hf.nodup hp₀

theorem Family.calm (hf : k.Family) (h : k.Calm k') : k'.Family :=
  hf.kin (h.mono Process.Calm.toKin)

theorem WaitInv.calm (hi : k.WaitInv) (h : k.Calm k') : k'.WaitInv := by
  refine ⟨hi.family.calm h, fun {p c P C} hp hw hc hget hd => ?_⟩
  obtain ⟨P₀, hp₀, hP⟩ := h.back hp
  obtain ⟨C₀, hc₀, hC⟩ := h.back hget
  rw [hP.children] at hc
  exact hi.hears hp₀ (hP.waiting hw) hc hc₀ (hC.dead hd)

/-! ## Calm operations -/

theorem processSwitch_processes (k : Kernel) : k.processSwitch.processes = k.processes := by
  have hdequeue : ∀ k : Kernel, k.processDequeue.processes = k.processes := by
    intro k
    unfold processDequeue
    cases k.runQueue with
    | nil => rfl
    | cons p rest => rfl
  unfold processSwitch
  rw [hdequeue]
  split
  · rfl
  · rfl

theorem processSwitch_calm (k : Kernel) : k.Calm k.processSwitch :=
  .of_eq (processSwitch_processes k)

theorem setResult_calm (k : Kernel) (p : Nat) (r : Int) : k.Calm (k.setResult p r) :=
  update_calm p fun _ => ⟨⟨rfl, rfl⟩, fun h => h, fun h => h⟩

theorem waited_calm (k : Kernel) (p : Nat) (r : Option Waited) : k.Calm (k.waited p r) := by
  cases r with
  | none => exact .of_eq rfl
  | some r => exact setResult_calm k p r.result

theorem processKill_calm (k : Kernel) (pid sig : Int) : k.Calm (k.processKill pid sig).2 := by
  unfold processKill
  split
  · exact .of_eq rfl
  split
  · exact .of_eq rfl
  split
  · exact .of_eq rfl
  · exact update_calm _ fun _ => ⟨⟨rfl, rfl⟩, fun h => h, fun h => h⟩

theorem wakeQueues_calm : ∀ {qs : List Waitq} {k : Kernel}, Waitq.child ∉ qs →
    k.Calm (k.wakeQueues qs)
  | [], _, _ => .of_eq rfl
  | q :: qs, k, h => by
    rw [List.mem_cons, not_or] at h
    have h1 : k.Calm (k.processWake q).2 := (processWake_woken (Ne.symm h.1)).released.calm
    exact h1.trans (wakeQueues_calm h.2)

theorem otherCall_calm {signal : ProcessSignal} {wakes : List Waitq} {sleep : Option Waitq}
    (h : k.otherCall p signal wakes sleep = .ok k') : k.Calm k' := by
  unfold otherCall at h
  split at h
  · cases h
  rename_i hq
  rw [not_or] at hq
  have hsignal : k.Calm (k.update p fun P => { P with signal }) :=
    update_calm p fun _ => ⟨⟨rfl, rfl⟩, fun h => h, fun h => h⟩
  have hwake := hsignal.trans (wakeQueues_calm hq.1)
  cases sleep with
  | none =>
    cases h
    exact hwake
  | some q =>
    cases h
    -- asleep, but not in `process_wait`
    refine hwake.trans (update_calm p fun P => ⟨⟨rfl, rfl⟩, fun h => ?_, fun h => ?_⟩)
    · cases h
    · exact absurd h.2 (by simp)

/-! ## Fork -/

theorem forkProcess_parent (hp : k.processes.get p = some P) {q : Nat} {Q : Process}
    (hq : k.processes.get q = some Q) :
    ∃ Q', (k.forkProcess p P).processes.get q = some Q' ∧ Q'.parent = Q.parent := by
  rw [forkProcess_get hp, if_neg (Nat.ne_of_lt (Store.lt_next hq))]
  by_cases hqp : q = p
  · subst hqp
    rw [hp] at hq
    cases hq
    rw [if_pos rfl]
    exact ⟨_, rfl, rfl⟩
  · rw [if_neg hqp]
    exact ⟨Q, hq, rfl⟩

/-- A fork lists its new child, which is ready. -/
theorem forkProcess_inv (hi : k.WaitInv) (hp : k.processes.get p = some P) :
    (k.forkProcess p P).WaitInv := by
  have hfresh : ∀ {q Q}, k.processes.get q = some Q → k.processes.next ∉ Q.children := by
    intro q Q hq hmem
    obtain ⟨C, hC, _⟩ := hi.family.child hq hmem
    exact Nat.lt_irrefl _ (Store.lt_next hC)
  have hold : ∀ {q Q c}, k.processes.get q = some Q → c ∈ Q.children →
      ∃ C, (k.forkProcess p P).processes.get c = some C ∧ C.parent = q := by
    intro q Q c hq hc
    obtain ⟨C, hC, hpar⟩ := hi.family.child hq hc
    obtain ⟨C', hC', hpar'⟩ := forkProcess_parent hp hC
    exact ⟨C', hC', hpar'.trans hpar⟩
  -- a dead process was dead before, and has not just been made
  have hdead : ∀ {c C}, (k.forkProcess p P).processes.get c = some C → C.state = .dead →
      c ≠ k.processes.next ∧ ∃ C₀, k.processes.get c = some C₀ ∧ C₀.state = .dead := by
    intro c C hC hd
    rcases forkProcess_cases hp hC with ⟨_, rfl⟩ | ⟨rfl, rfl⟩ | h
    · exact absurd hd (by simp [forkChild, newProcess])
    · exact ⟨Nat.ne_of_lt (Store.lt_next hp), P, hp, hd⟩
    · exact ⟨Nat.ne_of_lt (Store.lt_next h), C, h, hd⟩
  refine ⟨⟨fun {q c Q} hq hc => ?_, fun {q Q} hq => ?_⟩, fun {q c Q C} hq hw hc hC hd => ?_⟩
  · rcases forkProcess_cases hp hq with ⟨_, rfl⟩ | ⟨rfl, rfl⟩ | h
    · exact absurd hc (by simp [forkChild, newProcess])
    · rcases List.mem_cons.mp hc with rfl | hc
      · exact ⟨_, by rw [forkProcess_get hp, if_pos rfl], rfl⟩
      · exact hold hp hc
    · exact hold h hc
  · rcases forkProcess_cases hp hq with ⟨_, rfl⟩ | ⟨rfl, rfl⟩ | h
    · exact List.nodup_nil
    · exact List.nodup_cons.mpr ⟨hfresh hp, hi.family.nodup hp⟩
    · exact hi.family.nodup h
  · obtain ⟨hne, C₀, hC₀, hd₀⟩ := hdead hC hd
    rcases forkProcess_cases hp hq with ⟨_, rfl⟩ | ⟨rfl, rfl⟩ | h
    · exact absurd hc (by simp [forkChild, newProcess])
    · exact hi.hears hp hw ((List.mem_cons.mp hc).resolve_left hne) hC₀ hd₀
    · exact hi.hears h hw hc hC₀ hd₀

theorem processFork_inv (hi : k.WaitInv) {r : Nat} (h : k.processFork p = .ok (r, k')) :
    k'.WaitInv := by
  obtain ⟨P, hp, hcount⟩ := processFork_ok h
  exact (forkProcess_inv hi hp).calm (countupFiles_woken hcount).released.calm

/-! ## Exit -/

/-- The parent of `P` is awake, or it is the one that the next exit wakes. -/
def Hears (k : Kernel) (P : Process) : Prop :=
  ∀ {W}, k.processes.get P.parent = some W → W.Waiting →
    (k.waitqs .child).head? = some P.parent

/-- Waking the first of a queue makes it ready, and changes no other process. -/
theorem processWake_get (k : Kernel) (q : Waitq)
    (hw : (k.processWake q).2.processes.get w = some W) :
    ∃ W₀, k.processes.get w = some W₀ ∧ W₀.Released W
      ∧ ((k.waitqs q).head? = some w → W.state = .ready) := by
  unfold processWake at hw
  cases hq : k.waitqs q with
  | nil =>
    rw [hq] at hw
    exact ⟨W, hw, .refl W, fun h => absurd h (by simp)⟩
  | cons p rest =>
    rw [hq] at hw
    obtain ⟨W₀, h0, rfl⟩ := Store.get_modify hw
    by_cases hwp : w = p
    · rw [if_pos hwp]
      exact ⟨W₀, h0, ⟨.ready, W₀.files, W₀.closeOnExec, .inr rfl, rfl⟩, fun _ => rfl⟩
    · rw [if_neg hwp]
      exact ⟨W₀, h0, .refl W₀, fun h => absurd (Option.some.inj h) (Ne.symm hwp)⟩

theorem processExit_inv (hi : k.WaitInv) (hp : k.processes.get p = some P) (hh : k.Hears P)
    {status : Int} (h : k.processExit p status = .ok k') : k'.WaitInv := by
  obtain ⟨k2, hrel, h⟩ := bind_eq_ok h
  cases h
  have hr := releaseFiles_released hrel
  have hwake := (processWake_rel k2 .child).mono Process.Woken.released
  have hfamily : (k.update p fun P => { P with state := .dead, exitStatus := status }).Family :=
    hi.family.kin (.modify (fun _ => ⟨rfl, rfl⟩) p fun _ => ⟨rfl, rfl⟩)
  refine ⟨(hfamily.calm hr.calm).calm (hwake.mono Process.Released.calm),
    fun {w c W C} hW hwait hc hC hd => ?_⟩
  obtain ⟨W2, hW2, hWrel, hfront⟩ := processWake_get k2 .child hW
  obtain ⟨W1, hW1, hWcalm⟩ := (hr.calm).back hW2
  have hwait1 : W1.Waiting := hWcalm.waiting (hWrel.calm.waiting hwait)
  obtain ⟨W₀, hW₀, rfl⟩ := Store.get_modify hW1
  have hwp : w ≠ p := by
    rintro rfl
    exact absurd hwait1.1 (by simp)
  rw [if_neg hwp] at hwait1 hWcalm
  have hc : c ∈ W₀.children := by
    rw [← hWcalm.children, ← hWrel.calm.children]
    exact hc
  obtain ⟨C2, hC2, hCrel⟩ := hwake.back hC
  obtain ⟨C1, hC1, hCcalm⟩ := (hr.calm).back hC2
  have hd1 : C1.state = .dead := hCcalm.dead (hCrel.calm.dead hd)
  obtain ⟨C₀, hC₀, rfl⟩ := Store.get_modify hC1
  by_cases hcp : c = p
  · -- the child that died now: its parent was first in the queue, and is ready
    subst hcp
    obtain ⟨C', hC', hpar⟩ := hi.family.child hW₀ hc
    rw [hp] at hC'
    cases hC'
    have hhead := hh (hpar ▸ hW₀) hwait1
    rw [hpar] at hhead
    rw [hr.child] at hfront
    exact absurd hwait.1 (by rw [hfront hhead]; simp)
  · rw [if_neg hcp] at hd1
    exact hi.hears hW₀ hwait1 hc hC₀ hd1

/-! ## Wait -/

theorem isDead_iff (hp : k.processes.get p = some P) : k.isDead p = true ↔ P.state = .dead := by
  unfold isDead
  rw [hp]
  simp

/-- A process goes to sleep in `process_wait` when it has seen no dead child. -/
theorem processSleep_inv (hi : k.WaitInv) (hp : k.processes.get p = some P)
    (hno : ∀ c ∈ P.children, k.isDead c = false) : (k.processSleep p .child .wait).WaitInv := by
  refine ⟨hi.family.kin (.modify (fun _ => ⟨rfl, rfl⟩) p fun _ => ⟨rfl, rfl⟩),
    fun {w c W C} hW hwait hc hC hd => ?_⟩
  obtain ⟨W₀, hW₀, rfl⟩ := Store.get_modify hW
  obtain ⟨C₀, hC₀, rfl⟩ := Store.get_modify hC
  have hcp : c ≠ p := by
    rintro rfl
    rw [if_pos rfl] at hd
    cases hd
  rw [if_neg hcp] at hd
  by_cases hwp : w = p
  · subst hwp
    rw [if_pos rfl] at hc
    rw [hp] at hW₀
    cases hW₀
    have hdead := (isDead_iff hC₀).mpr hd
    rw [hno c hc] at hdead
    cases hdead
  · rw [if_neg hwp] at hwait hc
    exact hi.hears hW₀ hwait hc hC₀ hd

theorem reparent_get (parent : Nat → Nat) (q : Nat) : ∀ (cs : List Nat) (k : Kernel),
    (k.reparent parent cs).processes.get q = (k.processes.get q).map fun C =>
      { C with parent := if q ∈ cs then parent q else C.parent }
  | [], k => by
    simp [reparent]
  | c :: cs, k => by
    have hstep : k.reparent parent (c :: cs)
        = (k.update c fun C => { C with parent := parent c }).reparent parent cs := rfl
    rw [hstep, reparent_get parent q cs]
    unfold update
    by_cases hqc : q = c
    · subst hqc
      rw [Store.modify_self]
      simp [Function.comp_def]
    · rw [Store.modify_ne hqc]
      simp [hqc]

/-- What a process becomes when the children `cs` go to `top`, or become their own parents. -/
def adopt (top : Option Nat) (cs : List Nat) (q : Nat) (Q : Process) : Process :=
  { Q with
    parent := if q ∈ cs then top.getD q else Q.parent
    children := if top = some q then cs ++ Q.children else Q.children }

theorem findToplevelProcess_some (h : k.findToplevelProcess = some t) :
    ∃ T, k.processes.get t = some T ∧ T.parent = t := by
  have hprop := List.find?_some h
  cases ht : k.processes.get t with
  | none =>
    rw [ht] at hprop
    cases hprop
  | some T =>
    rw [ht] at hprop
    exact ⟨T, rfl, by simpa using hprop⟩

theorem handOver_get (k : Kernel) (cs : List Nat) (q : Nat) :
    (k.handOver cs).processes.get q
      = (k.processes.get q).map (adopt k.findToplevelProcess cs q) := by
  unfold handOver
  by_cases hcs : cs = []
  · rw [if_pos hcs, hcs]
    cases k.processes.get q with
    | none => rfl
    | some Q => simp [adopt]
  rw [if_neg hcs]
  cases ht : k.findToplevelProcess with
  | none =>
    rw [reparent_get]
    cases k.processes.get q with
    | none => rfl
    | some Q => simp [adopt]
  | some t =>
    simp only [update]
    by_cases hqt : q = t
    · subst hqt
      rw [Store.modify_self, reparent_get]
      cases k.processes.get q with
      | none => rfl
      | some Q => simp [adopt]
    · rw [Store.modify_ne hqt, reparent_get]
      cases k.processes.get q with
      | none => rfl
      | some Q => simp [adopt, Ne.symm hqt]

/-- `process_destroy` by `w` has taken `p` off the lists, and its children are still to go. -/
def unlisted (k : Kernel) (w p : Nat) : Kernel :=
  { k.update w fun W => { W with children := W.children.erase p } with
    runQueue := k.runQueue.erase p
    allProcesses := k.allProcesses.erase p }

theorem unlisted_toplevel (h : (k.unlisted w p).findToplevelProcess = some t) :
    ∃ T, k.processes.get t = some T ∧ T.parent = t := by
  obtain ⟨T, hT, hpar⟩ := findToplevelProcess_some h
  obtain ⟨T₀, hT₀, rfl⟩ := Store.get_modify hT
  refine ⟨T₀, hT₀, ?_⟩
  revert hpar
  split <;> exact id

/-- The processes after one was destroyed by its parent. -/
theorem processDestroy_get (hw : k.processes.get w = some W)
    (hp : k.processes.get p = some P) (h : k.processDestroy w p = .ok k') : w ≠ p ∧
    ∀ q, k'.processes.get q = if q = p then none else (k.processes.get q).map fun Q =>
      adopt (k.unlisted w p).findToplevelProcess P.children q
        (if q = w then { Q with children := Q.children.erase p } else Q) := by
  unfold processDestroy at h
  rw [hw, hp] at h
  simp only at h
  split at h
  · cases h
  rename_i hid
  cases h
  refine ⟨fun hwp => ?_, fun q => ?_⟩
  · subst hwp
    rw [hw] at hp
    cases hp
    exact hid rfl
  by_cases hqp : q = p
  · rw [if_pos hqp, hqp]
    exact Store.free_self
  · rw [if_neg hqp]
    refine (Store.free_ne hqp).trans ((handOver_get (k.unlisted w p) P.children q).trans ?_)
    have hget : (k.unlisted w p).processes.get q
        = (k.processes.get q).map fun Q =>
          if q = w then { Q with children := Q.children.erase p } else Q := by
      show (k.processes.modify w _).get q = _
      by_cases hqw : q = w
      · rw [hqw, Store.modify_self]
        simp
      · rw [Store.modify_ne hqw]
        simp [hqw]
    rw [hget, Option.map_map]
    rfl

/-- If `p` has a dead child, no process that is its own parent is waiting. -/
def HandsOver (k : Kernel) (P : Process) : Prop :=
  (∃ c ∈ P.children, k.isDead c = true) →
    ∀ {t T}, k.processes.get t = some T → T.parent = t → ¬ T.Waiting

/-- A parent destroys a child. -/
theorem processDestroy_inv (hi : k.WaitInv) (hw : k.processes.get w = some W)
    (hp : k.processes.get p = some P) (hpw : p ∈ W.children) (hh : k.HandsOver P)
    (h : k.processDestroy w p = .ok k') : k'.WaitInv := by
  obtain ⟨hwp, hget⟩ := processDestroy_get hw hp h
  have htop : ∀ t, (k.unlisted w p).findToplevelProcess = some t →
      ∃ T, k.processes.get t = some T ∧ T.parent = t := fun _ => unlisted_toplevel
  generalize (k.unlisted w p).findToplevelProcess = top at hget htop
  have hparent : ∀ {q Q c C}, k.processes.get q = some Q → c ∈ Q.children →
      k.processes.get c = some C → C.parent = q := by
    intro q Q c C hq hc hC
    obtain ⟨C', hC', hpar⟩ := hi.family.child hq hc
    rw [hC] at hC'
    cases hC'
    exact hpar
  have hPw : P.parent = w := hparent hw hpw hp
  have hpp : p ∉ P.children := fun hmem => hwp (hPw.symm.trans (hparent hp hmem hp))
  -- a process that is left, and which children it has
  have hback : ∀ {q Q'}, k'.processes.get q = some Q' → q ≠ p ∧ ∃ Q cs,
      k.processes.get q = some Q ∧ (∀ c ∈ cs, c ∈ Q.children ∧ c ≠ p) ∧ cs.Nodup
      ∧ Q' = adopt top P.children q { Q with children := cs } := by
    intro q Q' hq
    rw [hget q] at hq
    split at hq
    · cases hq
    rename_i hqp
    obtain ⟨Q, hQ, rfl⟩ := Option.map_eq_some_iff.mp hq
    have hnodup := hi.family.nodup hQ
    by_cases hqw : q = w
    · rw [if_pos hqw]
      refine ⟨hqp, Q, Q.children.erase p, hQ, fun c hc => ?_, hnodup.erase p, rfl⟩
      exact ⟨List.mem_of_mem_erase hc, (hnodup.mem_erase_iff.mp hc).1⟩
    · rw [if_neg hqw]
      refine ⟨hqp, Q, Q.children, hQ, fun c hc => ⟨hc, ?_⟩, hnodup, rfl⟩
      rintro rfl
      exact hqw ((hparent hQ hc hp).symm.trans hPw)
  have hforth : ∀ {c C}, k.processes.get c = some C → c ≠ p → ∃ C', k'.processes.get c = some C'
      ∧ C'.parent = if c ∈ P.children then top.getD c else C.parent := by
    intro c C hC hcp
    refine ⟨_, by rw [hget c, if_neg hcp, hC]; rfl, ?_⟩
    split <;> rfl
  -- the children of a process are handed to it, or its own
  have hmem : ∀ {q c cs} {Q : Process}, c ∈ (adopt top P.children q { Q with children := cs }).children →
      (top = some q ∧ c ∈ P.children) ∨ c ∈ cs := by
    intro q c cs Q hc
    unfold adopt at hc
    simp only at hc
    split at hc
    · rcases List.mem_append.mp hc with hc | hc
      · exact .inl ⟨‹_›, hc⟩
      · exact .inr hc
    · exact .inr hc
  refine ⟨⟨fun {q c Q'} hq hc => ?_, fun {q Q'} hq => ?_⟩, fun {q c Q' C'} hq hwait hc hC hd => ?_⟩
  · obtain ⟨hqp, Q, cs, hQ, hcs, _, rfl⟩ := hback hq
    rcases hmem hc with ⟨htq, hc⟩ | hc
    · obtain ⟨C, hC, _⟩ := hi.family.child hp hc
      obtain ⟨C', hC', hpar⟩ := hforth hC (fun h => hpp (h ▸ hc))
      exact ⟨C', hC', by rw [hpar, if_pos hc, htq]; rfl⟩
    · obtain ⟨hcQ, hcp⟩ := hcs c hc
      obtain ⟨C, hC, hparC⟩ := hi.family.child hQ hcQ
      obtain ⟨C', hC', hpar⟩ := hforth hC hcp
      have hother : c ∉ P.children := fun h => hqp (hparC.symm.trans (hparent hp h hC))
      exact ⟨C', hC', by rw [hpar, if_neg hother, hparC]⟩
  · obtain ⟨hqp, Q, cs, hQ, hcs, hnodup, rfl⟩ := hback hq
    unfold adopt
    simp only
    split
    · refine List.nodup_append.mpr ⟨hi.family.nodup hp, hnodup, fun c hc d hd hcd => ?_⟩
      subst hcd
      obtain ⟨C, hC, hparC⟩ := hi.family.child hQ (hcs c hd).1
      exact hqp (hparC.symm.trans (hparent hp hc hC))
    · exact hnodup
  · obtain ⟨_, Q, cs, hQ, hcs, _, rfl⟩ := hback hq
    obtain ⟨_, C, _, hC₀, _, _, rfl⟩ := hback hC
    rcases hmem hc with ⟨htq, hc⟩ | hc
    · obtain ⟨T, hT, hpar⟩ := htop q htq
      rw [hQ] at hT
      cases hT
      exact hh ⟨c, hc, (isDead_iff hC₀).mpr hd⟩ hQ hpar hwait
    · exact hi.hears hQ hwait (hcs c hc).1 hC₀ hd

/-- The child that `process_wait` finds may be destroyed. -/
def Reaps (k : Kernel) (P : Process) : Prop :=
  ∀ {c C}, P.children.find? k.isDead = some c → k.processes.get c = some C → k.HandsOver C

theorem processWaitLoop_inv (hi : k.WaitInv) (hp : k.processes.get p = some P) (hh : k.Reaps P)
    (h : k.processWaitLoop p = .ok (r, k')) : k'.WaitInv := by
  obtain ⟨P', hp', hcases⟩ := processWaitLoop_ok h
  obtain rfl := Option.some.inj (hp.symm.trans hp')
  rcases hcases with ⟨hfind, _, rfl⟩ | ⟨c, C, hfind, hc, hd, _⟩
  · refine processSleep_inv hi hp fun c hc => ?_
    simpa using List.find?_eq_none.mp hfind c hc
  · exact processDestroy_inv hi hp hc (List.mem_of_find?_eq_some hfind) (hh hfind hc) hd

theorem processWait_inv (hi : k.WaitInv) (hp : k.processes.get p = some P) (hh : k.Reaps P)
    (h : k.processWait p = .ok (r, k')) : k'.WaitInv := by
  rcases processWait_ok h with ⟨_, rfl⟩ | h
  · exact hi
  · exact processWaitLoop_inv hi hp hh h

/-! ## Runs that hear their children -/

/-- What the dispatch of a process `P` asks of the state it starts from. When the process
exits, its parent is awake or first in the queue of the waiting parents. When it reaps a
child that has a dead child itself, the top-level process is awake. -/
def CallOk (k : Kernel) (P : Process) (beyond : KSigaction) (c : Call) : Prop :=
  match P.suspend with
  | some .wait => k.Reaps P
  | some .other => True
  | none =>
    if fatal P beyond then k.Hears P
    else match c with
      | .exit _ => k.Hears P
      | .wait => k.Reaps P
      | _ => True

def WakeOk (k : Kernel) : WaitAct → Prop
  | .interrupt _ => True
  | .dispatch entry c => ∀ p P, k.currentProcess = some p → k.processes.get p = some P →
      k.CallOk P entry.beyond c

/-- Nothing has happened but that the process that is dispatched was prepared for its call. -/
structure Still (k k' : Kernel) : Prop where
  rel : k.processes.Rel Process.Still k'.processes
  child : k'.waitqs .child = k.waitqs .child

theorem Still.refl (k : Kernel) : k.Still k := ⟨.refl Process.Still.refl _, rfl⟩

theorem update_still (k : Kernel) (p : Nat)
    (hf : ∀ P, Process.Still P (f P)) : k.Still (k.update p f) :=
  ⟨.modify Process.Still.refl p hf, rfl⟩

theorem Still.trans (h : k.Still k') (h' : k'.Still k'') : k.Still k'' :=
  ⟨h.rel.trans Process.Still.trans h'.rel, h'.child.trans h.child⟩

theorem Still.calm (h : k.Still k') : k.Calm k' := h.rel.mono Process.Still.calm

theorem Still.isDead (h : k.Still k') (c : Nat) : k'.isDead c = k.isDead c := by
  have h1 := h.rel c
  unfold Kernel.isDead
  generalize k.processes.get c = a at *
  generalize k'.processes.get c = b at *
  cases h1 with
  | none => rfl
  | some h1 => simp [h1.state]

theorem Still.hears (h : k.Still k') (hk : P.Kin P') (hh : k.Hears P) :
    k'.Hears P' := by
  intro W hW hwait
  rw [hk.parent] at hW ⊢
  obtain ⟨W₀, hW₀, hcalm⟩ := h.calm.back hW
  rw [h.child]
  exact hh hW₀ (hcalm.waiting hwait)

theorem Still.reaps (h : k.Still k') (hk : P.Kin P') (hh : k.Reaps P) :
    k'.Reaps P' := by
  intro c C hfind hC hdead t T hT hpar hwait
  have hfun : k'.isDead = k.isDead := funext h.isDead
  rw [hk.children, hfun] at hfind
  obtain ⟨C₀, hC₀, hCcalm⟩ := h.calm.back hC
  obtain ⟨T₀, hT₀, hTcalm⟩ := h.calm.back hT
  rw [hfun, hCcalm.children] at hdead
  exact hh hfind hC₀ hdead hT₀ (hTcalm.parent.symm.trans hpar) (hTcalm.waiting hwait)

/-- A call that is made keeps the invariant. -/
theorem call_inv (hi : k.WaitInv) (hp : k.processes.get p = some P) {c : Call}
    (hexit : ∀ {status}, c = .exit status → k.Hears P) (hwait : c = .wait → k.Reaps P)
    (h : k.call p c = .ok k') : k'.WaitInv := by
  cases c with
  | fork =>
    obtain ⟨⟨r, k1⟩, hf, h⟩ := bind_eq_ok h
    cases h
    exact (processFork_inv hi hf).calm (setResult_calm _ _ _)
  | exit status => exact processExit_inv hi hp (hexit rfl) h
  | wait =>
    obtain ⟨⟨r, k1⟩, hw, h⟩ := bind_eq_ok h
    cases h
    exact (processWait_inv hi hp (hwait rfl) hw).calm (waited_calm _ _ _)
  | kill pid sig =>
    rw [← Except.ok.inj h]
    exact hi.calm ((processKill_calm k pid sig).trans (setResult_calm _ _ _))
  | other signal wakes sleep => exact hi.calm (otherCall_calm h)

/-- A dispatch and what follows keep the invariant. -/
theorem proceed_inv (hi : k.WaitInv) (hp : k.processes.get p = some P) {c : Call} {d : Dispatch}
    {m m' : Bytes} {beyond : KSigaction} {context : ProcessContext} {k1 : Kernel}
    (hok : k.CallOk P beyond c) (hd : k.processDispatch p m beyond = .ok (d, k1, m'))
    (h : k1.proceed p context c d = .ok k') : k'.WaitInv := by
  unfold CallOk at hok
  -- the process goes to user mode and comes back with its call
  have huser : ∀ {k1 : Kernel}, P.suspend = none → fatal P beyond = false → k.Still k1 →
      (k1.setContext p context).call p c = .ok k' → k'.WaitInv := by
    intro k1 hs hf hstill h
    have hstill : k.Still (k1.setContext p context) :=
      hstill.trans (update_still k1 p fun _ => ⟨⟨rfl, rfl⟩, rfl, fun h => h⟩)
    obtain ⟨P', hp', hP⟩ := hstill.rel.forth hp
    rw [hs] at hok
    simp only [hf] at hok
    refine call_inv (hi.calm hstill.calm) hp' (fun hc => ?_) (fun hc => ?_) h
    · subst hc
      exact hstill.hears hP.toKin hok
    · subst hc
      exact hstill.reaps hP.toKin hok
  cases processDispatch_cases hp hd with
  | @resume call hs =>
    rw [hs] at hok
    have hstill : k.Still (k.update p fun P => { P with suspend := none }) :=
      update_still k p fun _ => ⟨⟨rfl, rfl⟩, rfl, fun hw => absurd hw.2 (by simp)⟩
    obtain ⟨P', hp', hP⟩ := hstill.rel.forth hp
    cases call with
    | wait =>
      obtain ⟨⟨r, k2⟩, hw, h⟩ := bind_eq_ok h
      cases h
      exact (processWaitLoop_inv (hi.calm hstill.calm) hp' (hstill.reaps hP.toKin hok) hw).calm
        (waited_calm _ _ _)
    | other =>
      cases c with
      | other signal wakes sleep => exact (hi.calm hstill.calm).calm (otherCall_calm h)
      | fork | exit | wait | kill => exact absurd h (by simp [proceed])
  | exited hs hf he =>
    cases h
    rw [hs] at hok
    simp only [hf] at hok
    exact processExit_inv hi hp hok he
  | undisturbed hs _ hf => exact huser hs hf (.refl k) h
  | ignored hs _ hf =>
    refine huser hs hf ?_ h
    exact update_still k p fun _ => ⟨⟨rfl, rfl⟩, rfl, fun h => h⟩
  | handled hs hf _ =>
    refine huser hs hf.not_fatal ?_ h
    exact update_still k p fun _ => ⟨⟨rfl, rfl⟩, rfl, fun h => h⟩
  | stray => exact absurd h (by simp [proceed])

theorem waitStep_inv {a : WaitAct} (hi : k.WaitInv) (hok : k.WakeOk a)
    (h : k.waitStep a = .ok k') : k'.WaitInv := by
  cases a with
  | interrupt wakes =>
    simp only [waitStep] at h
    split at h
    · rename_i hq
      cases h
      exact hi.calm ((wakeQueues_calm hq.2).trans (processSwitch_calm _))
    · cases h
  | dispatch entry c =>
    simp only [waitStep] at h
    cases hcur : k.currentProcess with
    | none =>
      rw [hcur] at h
      cases h
    | some p =>
      rw [hcur] at h
      obtain ⟨⟨d, k1, m'⟩, hd, h⟩ := bind_eq_ok h
      obtain ⟨k2, hpro, h⟩ := bind_eq_ok h
      cases h
      obtain ⟨P, hp, _⟩ := processDispatch_ok hd
      exact (proceed_inv hi hp (hok p P hcur hp) hd hpro).calm (processSwitch_calm k2)

end Kernel

/-- A kernel with one process, which has no children. -/
theorem Kernel.boot_inv (sp pc : Nat) : (Kernel.boot sp pc).WaitInv := by
  have hone : ∀ {p P}, (Kernel.empty.processCreate sp pc).processes.get p = some P →
      P.children = [] := by
    intro p P hp
    obtain ⟨P₀, h0, rfl⟩ := Store.get_modify hp
    by_cases hp0 : p = 0
    · subst hp0
      cases h0
      rfl
    · exact absurd h0 (by
        have : (Store.empty.alloc (newProcess 1)).get p = some P₀ := h0
        rw [Store.alloc_ne hp0] at this
        exact absurd this (by simp [Store.empty]))
  refine WaitInv.calm (k := empty.processCreate sp pc) ⟨⟨fun hp hc => ?_, fun hp => ?_⟩,
    fun hp _ hc => ?_⟩ (processSwitch_calm _)
  · rw [hone hp] at hc
    cases hc
  · rw [hone hp]
    exact List.nodup_nil
  · rw [hone hp] at hc
    cases hc

/-- **No lost wake-up.** In every run from the first dispatch whose steps meet `WakeOk`, a
process that is blocked in `process_wait` has no dead child whenever a process is dispatched
or the machine goes idle. -/
theorem wait_hears_children {sp pc : Nat} {as : List WaitAct} {k : Kernel}
    (hr : Run (Guarded Kernel.WakeOk fun k a k' => k.waitStep a = .ok k') (.boot sp pc) as k) :
    k.HearsChildren :=
  (hr.invariant (Kernel.boot_inv sp pc) fun _ _ _ hi h => Kernel.waitStep_inv hi h.1 h.2).hears

/-- A dispatch of a process that uses no memory. -/
def plainCall (c : Call) : WaitAct := .dispatch ⟨fun _ => 0, ⟨0, 0, 0, 0⟩, .zero⟩ c

/-- What the guard of a step looks at: the dispatched process, whether it is suspended or about
to be ended, the dead child it would reap, its parent and the first waiting parent. -/
def Kernel.view (k : Kernel) :=
  k.currentProcess.bind fun p => (k.processes.get p).map fun P =>
    (P.suspend, Kernel.fatal P ⟨0, 0, 0, 0⟩, P.children.find? k.isDead, P.parent,
      (k.waitqs .child).head?)

theorem Kernel.wakeOk_of_view {k : Kernel} {c : Call} {reaped front : Option Nat} {parent : Nat}
    (h : k.view = some (none, false, reaped, parent, front))
    (hwait : c = .wait → reaped = none) (hexit : ∀ {status}, c = .exit status → front = some parent) :
    k.WakeOk (plainCall c) := by
  intro p P hcur hp
  unfold view at h
  simp only [hcur, hp, Option.bind_some, Option.map_some, Option.some.injEq, Prod.mk.injEq] at h
  obtain ⟨hs, hf, hr, hpar, hfront⟩ := h
  unfold CallOk
  rw [hs]
  simp only [hf]
  cases c with
  | exit status =>
    intro W _ _
    rw [hpar, hfront, hexit rfl]
  | wait =>
    intro c C hfind
    rw [hr, hwait rfl] at hfind
    cases hfind
  | fork | kill | other => trivial

/-- The first process forks and waits, and its child exits. -/
theorem wait_hears_children_one : ∃ k, Run (Guarded Kernel.WakeOk fun k a k' => k.waitStep a = .ok k')
      (.boot 0 0) ([.fork, .wait, .exit 0].map plainCall) k
    ∧ k.currentProcess = some 0 ∧ k.HearsChildren := by
  have hview0 : (Kernel.boot 0 0).view = some (none, false, none, 0, none) := by decide
  have hview1 : ((Kernel.boot 0 0).waitStep (plainCall .fork)).toOption.bind Kernel.view
      = some (none, false, none, 0, none) := by decide
  have hview2 : (((Kernel.boot 0 0).waitStep (plainCall .fork)).bind fun k =>
      k.waitStep (plainCall .wait)).toOption.bind Kernel.view
      = some (none, false, none, 0, some 0) := by decide
  have hend : (((Kernel.boot 0 0).waitStep (plainCall .fork)).bind fun k =>
      (k.waitStep (plainCall .wait)).bind fun k =>
        k.waitStep (plainCall (.exit 0))).toOption.bind (·.currentProcess) = some 0 := by
    decide
  cases h1 : (Kernel.boot 0 0).waitStep (plainCall .fork) with
  | error e => exact absurd hview1 (by simp [h1, Except.toOption])
  | ok k1 =>
    simp only [h1, Except.bind, Except.toOption] at hview1 hview2 hend
    cases h2 : k1.waitStep (plainCall .wait) with
    | error e => exact absurd hview2 (by simp [h2])
    | ok k2 =>
      simp only [h2] at hview2 hend
      cases h3 : k2.waitStep (plainCall (.exit 0)) with
      | error e => exact absurd hend (by simp [h3])
      | ok k3 =>
        simp only [h3] at hend
        have hr0 : Run (Guarded Kernel.WakeOk fun k a k' => k.waitStep a = .ok k')
            (.boot 0 0) [plainCall .fork] k1 :=
          Run.nil.snoc ⟨Kernel.wakeOk_of_view hview0 (by simp) (by simp), h1⟩
        have hok1 : k1.WakeOk (plainCall .wait) :=
          Kernel.wakeOk_of_view hview1 (fun _ => rfl) (by simp)
        have hok2 : k2.WakeOk (plainCall (.exit 0)) :=
          Kernel.wakeOk_of_view hview2 (by simp) (fun _ => rfl)
        have hr2 := (hr0.snoc ⟨hok1, h2⟩).snoc ⟨hok2, h3⟩
        exact ⟨k3, hr2, hend, wait_hears_children hr2⟩

/-- The first process forks twice, its first child forks once, and both parents wait. The
second child of the first process exits, and the other parent is woken. -/
def twoParents : List WaitAct := [.fork, .fork, .fork, .wait, .wait, .exit 0].map plainCall

theorem wait_loses_wakeup : ¬ ∀ (sp pc : Nat) (as : List WaitAct) (k : Kernel),
    Run (fun k a k' => k.waitStep a = .ok k') (.boot sp pc) as k → k.HearsChildren := by
  intro h
  have hrun : (twoParents.foldlM Kernel.waitStep (.boot 0 0)).toOption.map (fun k =>
      ((k.processes.get 0).map fun P => (P.state, P.suspend, P.children),
        (k.processes.get 2).map (·.state)))
      = some (some (.blocked, some .wait, [2, 1]), some .dead) := by decide
  cases hk : twoParents.foldlM Kernel.waitStep (.boot 0 0) with
  | error e =>
    rw [hk] at hrun
    exact absurd hrun (by simp [Except.toOption])
  | ok k =>
    rw [hk] at hrun
    obtain ⟨h0, h2⟩ := Prod.mk.inj (Option.some.inj hrun)
    obtain ⟨P, hP, hfields⟩ := Option.map_eq_some_iff.mp h0
    obtain ⟨C, hC, hdead⟩ := Option.map_eq_some_iff.mp h2
    obtain ⟨hstate, hrest⟩ := Prod.mk.inj hfields
    obtain ⟨hsuspend, hchildren⟩ := Prod.mk.inj hrest
    exact h 0 0 twoParents k (.of_foldlM hk) hP ⟨hstate, hsuspend⟩
      (by rw [hchildren]; simp) hC hdead

end Cyanurus
