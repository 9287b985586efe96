import Cyanurus.Proc.WaitRun

/-!
# Processes run in user mode

Every context that is handed to a process should have the user mode in its status word.
The kernel writes this mode itself when it creates a process, starts a program or enters a
signal handler, and the processor keeps it while the process runs. `sigreturn` takes the
whole context from the user stack and does not look at the mode.

A `stray` store may change anything, so no state is ruled out after it. **`user_mode`**:
in runs without stray stores, in which every frame that `sigreturn` reads has the user mode,
all processes stay in user mode.
-/

namespace Cyanurus

open Lts

/-- `IS_USER_MODE` -/
def ProcessContext.isUserMode (c : ProcessContext) : Bool := c.cpsr &&& (2 ^ 5 - 1) == 0x10

/-! ## Runs -/

inductive ModeCall where
  | call (c : Call)
  | sigaction (sig : Int) (ksa : Option KSigaction)
  | sigprocmask (how : Int) (set : Option Sigset)
  | sigreturn (m : Bytes)
  | exec (lens : List Nat) (image : Option (Nat × Nat))
  | readv (ds : Nat → Delivery) (m : Bytes) (iov : Nat) (iovcnt : Int)
  /-- A data abort: the page is added, or `SIGSEGV` is sent. -/
  | abort (paged : Bool)
  /-- Any other call one of whose stores is stray. -/
  | overrun

inductive ModeAct where
  | interrupt (wakes : List Waitq)
  | dispatch (entry : Entry) (call : ModeCall)

def sigsegv : Nat := 11

/-- The registers that are saved at the entry to the kernel. A process in user mode cannot
change its mode. -/
def ProcessContext.entered (c saved : ProcessContext) : ProcessContext :=
  if c.isUserMode then { saved with cpsr := saved.cpsr / 32 * 32 + 0x10 } else saved

namespace Kernel

/-- A call; `none` if one of its stores is stray. -/
def modeCall (k : Kernel) (p : Nat) : ModeCall → Except Halt (Option Kernel)
  | .call c => do
      let k ← k.call p c
      .ok (some k)
  | .sigaction sig ksa =>
    .ok ((k.processSigaction p sig ksa).map fun (r, k) => k.setResult p r)
  | .sigprocmask how set =>
    let (r, k) := k.processSigprocmask p how set
    .ok (some (k.setResult p r))
  | .sigreturn m => .ok (some (k.processSigreturn p m))
  | .exec lens image => do
      let done ← k.processExec p lens image
      .ok (done.map fun (r, k) => if r < 0 then k.setResult p r else k)
  | .readv ds m iov iovcnt =>
    let t := syscallReadv ds m iov iovcnt
    .ok (if ∀ c ∈ t.calls, InUser c then some (k.setResult p t.ret) else none)
  | .abort true => .ok (some k)
  | .abort false =>
    match k.processes.get p with
    | none => .error .fault
    | some P => .ok (some (k.processKill P.id sigsegv).2)
  | .overrun => .ok none

def modeProceed (k : Kernel) (p : Nat) (saved : ProcessContext) (call : ModeCall) :
    Dispatch → Except Halt (Option Kernel)
  | .user c => (k.setContext p (c.entered saved)).modeCall p call
  | .stray => .ok none
  | .exited => .ok (some k)
  | .resume suspended =>
    match call with
    | .call c => do
        let k ← k.proceed p saved c (.resume suspended)
        .ok (some k)
    | _ => .error .unknown

/-- From one dispatch, or idle state, to the next. -/
def modeStep (k : Kernel) : ModeAct → Except Halt (Option Kernel)
  | .interrupt wakes => do
      let k ← k.waitStep (.interrupt wakes)
      .ok (some k)
  | .dispatch entry call =>
    match k.currentProcess with
    | none => .error .unknown
    | some p => do
        let (d, k, _) ← k.processDispatch p entry.memory entry.beyond
        let done ← k.modeProceed p entry.context call d
        .ok (done.map processSwitch)

/-- The steps of the kernel; a stray store may lead anywhere. -/
inductive ModeStep : Kernel → ModeAct → Kernel → Prop
  | done {k k' : Kernel} {a : ModeAct} : k.modeStep a = .ok (some k') → ModeStep k a k'
  | stray {k k' : Kernel} {a : ModeAct} : k.modeStep a = .ok none → ModeStep k a k'

/-- Every context that the next dispatch can hand to a process has the user mode. -/
def UserMode (k : Kernel) : Prop :=
  ∀ p m beyond c k' m', k.currentProcess = some p →
    k.processDispatch p m beyond = .ok (.user c, k', m') → c.isUserMode = true

/-! ## The condition -/

/-- The frame of a handler, pushed at `sp`, is in the user range. -/
def FrameInUser (sp : Nat) : Prop :=
  InUser (pushAddress sp 68, 68) ∧ InUser (pushAddress (pushAddress sp 68) 8, 8)

/-- What a call asks of its arguments and of the registers it is made with. -/
def CallInUser (saved : ProcessContext) : ModeCall → Prop
  | .sigaction sig ksa => sig = 64 → ksa = none
  | .sigreturn m => (loadContext m (popAddress saved.sp 8)).isUserMode = true
  | .exec lens _ => argTotal lens ≤ argMax ∨ argSize lens > argMax
  | .readv ds m iov iovcnt => ReadvSafe ds m iov iovcnt
  | .overrun => False
  | _ => True

/-- What a step asks of the state it starts from: a handler is entered with a stack pointer
in the user range, and the call keeps to the user's memory and mode. -/
def ModeOk (k : Kernel) : ModeAct → Prop
  | .interrupt _ => True
  | .dispatch entry call => CallInUser entry.context call
      ∧ ∀ p P, k.currentProcess = some p → k.processes.get p = some P → P.suspend = none →
        HasHandler P entry.beyond → FrameInUser P.context.sp

/-! ## The invariant -/

/-- All processes have the user mode in their contexts. -/
def ModeInv (k : Kernel) : Prop :=
  ∀ p P, k.processes.get p = some P → P.context.isUserMode = true

variable {k k' : Kernel} {p : Nat} {P : Process}
  {c saved context : ProcessContext} {f : Process → Process} {r : Option Waited}
  {image : Option (Nat × Nat)} {lens : List Nat} {ksa : Option KSigaction} {sig : Int}
  {done : Option Kernel} {sp : Nat} {m m' : Bytes} {d : Dispatch} {beyond : KSigaction}

/-- The mode that the kernel writes itself. -/
theorem isUserMode_of_cpsr (h : c.cpsr = 0x10) : c.isUserMode = true := by
  unfold ProcessContext.isUserMode
  rw [h]
  rfl

/-- The processes come from processes with the same context. -/
theorem ModeInv.of_context (hi : k.ModeInv) (h : ∀ {p P'}, k'.processes.get p = some P' →
    ∃ P, k.processes.get p = some P ∧ P'.context = P.context) : k'.ModeInv := by
  intro p P' hp
  obtain ⟨P, hP, hc⟩ := h hp
  rw [hc]
  exact hi p P hP

theorem ModeInv.update (hi : k.ModeInv)
    (hf : ∀ P, k.processes.get p = some P → (f P).context.isUserMode = true) :
    (k.update p f).ModeInv := by
  intro q Q hq
  obtain ⟨Q₀, hQ, rfl⟩ := Store.get_modify hq
  by_cases hqp : q = p
  · subst hqp
    rw [if_pos rfl]
    exact hf Q₀ hQ
  · rw [if_neg hqp]
    exact hi q Q₀ hQ

/-- An update that leaves the status word alone. -/
theorem ModeInv.keep (hi : k.ModeInv)
    (hf : ∀ P, (f P).context.cpsr = P.context.cpsr) : (k.update p f).ModeInv :=
  hi.update fun P hP => by
    have := hi p P hP
    unfold ProcessContext.isUserMode at *
    rw [hf P]
    exact this

theorem ModeInv.rel (hi : k.ModeInv) (h : k.processes.Rel Process.Released k'.processes) :
    k'.ModeInv := hi.of_context fun hp => by
  obtain ⟨P, hP, _, _, _, _, rfl⟩ := h.back hp
  exact ⟨P, hP, rfl⟩

theorem ModeInv.switch (hi : k.ModeInv) : k.processSwitch.ModeInv := by
  intro p P hp
  rw [processSwitch_processes] at hp
  exact hi p P hp

theorem setResult_mode (hi : k.ModeInv) (p : Nat) (r : Int) : (k.setResult p r).ModeInv := by
  exact hi.keep fun _ => rfl

theorem waited_mode (hi : k.ModeInv) (p : Nat) (r : Option Waited) : (k.waited p r).ModeInv := by
  cases r with
  | none => exact hi
  | some r => exact setResult_mode hi p r.result

theorem wakeQueues_mode : ∀ {qs : List Waitq} {k : Kernel}, k.ModeInv → (k.wakeQueues qs).ModeInv
  | [], _, hi => hi
  | q :: _, k, hi => wakeQueues_mode (k := (k.processWake q).2) (hi.rel ((processWake_rel k q).mono Process.Woken.released))

theorem processExit_mode (hi : k.ModeInv) {status : Int} (h : k.processExit p status = .ok k') :
    k'.ModeInv := by
  obtain ⟨k1, hrel, h⟩ := bind_eq_ok h
  cases h
  have hdead : (k.update p fun P => { P with state := .dead, exitStatus := status }).ModeInv :=
    hi.keep fun _ => rfl
  exact (hdead.rel (releaseFiles_released hrel).rel).rel
    ((processWake_rel k1 .child).mono Process.Woken.released)

theorem processFork_mode (hi : k.ModeInv) {r : Nat} (h : k.processFork p = .ok (r, k')) :
    k'.ModeInv := by
  obtain ⟨P, hp, hcount⟩ := processFork_ok h
  refine ModeInv.rel (fun q Q hq => ?_) (countupFiles_woken hcount).released.rel
  rcases forkProcess_cases hp hq with ⟨_, rfl⟩ | ⟨_, rfl⟩ | hq
  · exact hi p P hp
  · exact hi p P hp
  · exact hi q Q hq

theorem processWaitLoop_mode (hi : k.ModeInv)
    (h : k.processWaitLoop p = .ok (r, k')) : k'.ModeInv := by
  obtain ⟨P, hp, ⟨_, _, rfl⟩ | ⟨c, C, _, hc, hd, _⟩⟩ := processWaitLoop_ok h
  · exact hi.keep fun _ => rfl
  · obtain ⟨_, hget⟩ := processDestroy_get hp hc hd
    refine hi.of_context fun {q Q} hq => ?_
    rw [hget q] at hq
    split at hq
    · cases hq
    · obtain ⟨Q₀, hQ₀, rfl⟩ := Option.map_eq_some_iff.mp hq
      refine ⟨Q₀, hQ₀, ?_⟩
      split <;> rfl

theorem processWait_mode (hi : k.ModeInv) (h : k.processWait p = .ok (r, k')) :
    k'.ModeInv := by
  rcases processWait_ok h with ⟨_, rfl⟩ | h
  · exact hi
  · exact processWaitLoop_mode hi h

theorem processKill_mode (hi : k.ModeInv) (pid sig : Int) : (k.processKill pid sig).2.ModeInv := by
  rcases processKill_cases k pid sig with heq | ⟨_, _, _, heq⟩
  · rw [heq]
    exact hi
  · rw [heq]
    exact hi.keep fun _ => rfl

theorem otherCall_mode (hi : k.ModeInv) {signal : ProcessSignal} {wakes : List Waitq}
    {sleep : Option Waitq} (h : k.otherCall p signal wakes sleep = .ok k') : k'.ModeInv := by
  unfold otherCall at h
  split at h
  · cases h
  have hsignal : (k.update p fun P => { P with signal }).ModeInv := hi.keep fun _ => rfl
  have hwake : ((k.update p fun P => { P with signal }).wakeQueues wakes).ModeInv :=
    wakeQueues_mode hsignal
  cases sleep with
  | none =>
    cases h
    exact hwake
  | some q =>
    cases h
    exact hwake.keep fun _ => rfl

theorem call_mode (hi : k.ModeInv) {c : Call} (h : k.call p c = .ok k') : k'.ModeInv := by
  cases c with
  | fork =>
    obtain ⟨⟨r, k1⟩, hf, h⟩ := bind_eq_ok h
    cases h
    exact setResult_mode (processFork_mode hi hf) p r
  | exit status => exact processExit_mode hi h
  | wait =>
    obtain ⟨⟨r, k1⟩, hw, h⟩ := bind_eq_ok h
    cases h
    exact waited_mode (processWait_mode hi hw) p r
  | kill pid sig =>
    rw [← Except.ok.inj h]
    exact setResult_mode (processKill_mode hi pid sig) p _
  | other signal wakes sleep => exact otherCall_mode hi h

theorem closeMarked_released : ∀ {is : List (Fin maxFdSize)} {k k' : Kernel} {p : Nat},
    k.closeMarked p is = .ok k' → k.Released k'
  | [], k, _, _, h => by
    cases h
    exact .refl k
  | i :: is, k, _, p, h => by
    unfold closeMarked at h
    split at h
    · exact closeMarked_released h
    · obtain ⟨k1, h1, h⟩ := bind_eq_ok h
      have h2 : k1.Released (k1.update p fun P =>
          { P with files := P.files.set i none, closeOnExec := P.closeOnExec.set i false }) :=
        .update k1 p fun P =>
          ⟨P.state, P.files.set i none, P.closeOnExec.set i false, .inl rfl, rfl⟩
      exact ((releaseFile_woken h1).released.trans h2).trans (closeMarked_released h)

theorem processExec_mode (hi : k.ModeInv) {r : Int}
    (h : k.processExec p lens image = .ok (some (r, k'))) : k'.ModeInv := by
  rcases processExec_cases h with ⟨_, rfl⟩ | ⟨sp, pc, k1, hclose, rfl⟩
  · exact hi
  · have hsignal : (k.update p fun P => { P with
        signal := { P.signal with actions := resetHandlers P.signal.actions } }).ModeInv :=
      hi.keep fun _ => rfl
    exact (hsignal.rel (closeMarked_released hclose).rel).update fun _ _ => isUserMode_of_cpsr rfl

/-- An exec that is not refused fits its page, or its size was taken for a small one. -/
theorem processExec_none
    (h : k.processExec p lens image = .ok none) :
    ¬ argSize lens > argMax ∧ argTotal lens > argMax := by
  unfold processExec at h
  split at h
  · cases h
  rename_i hsize
  split at h
  · exact ⟨hsize, ‹_›⟩
  cases image with
  | none => cases h
  | some image =>
    obtain ⟨k1, _, h⟩ := bind_eq_ok h
    cases h

theorem processSigaction_mode (hi : k.ModeInv) {r : Int}
    (h : k.processSigaction p sig ksa = some (r, k')) : k'.ModeInv := by
  rcases processSigaction_cases h with rfl | ⟨act, _, _, _, rfl⟩
  · exact hi
  · exact hi.keep fun _ => rfl

theorem processSigaction_none
    (h : k.processSigaction p sig ksa = none) : sig = 64 ∧ ksa ≠ none := by
  unfold processSigaction nsig at h
  split at h
  · cases h
  split at h
  · cases h
  cases ksa with
  | none => cases h
  | some ksa =>
    simp only at h
    split at h
    · cases h
    · exact ⟨by omega, by simp⟩

theorem processSigprocmask_mode (hi : k.ModeInv) (how : Int) (set : Option Sigset) :
    (k.processSigprocmask p how set).2.ModeInv := by
  rcases processSigprocmask_cases k p how set with heq | ⟨_, heq, _⟩
  · rw [heq]
    exact hi
  · rw [heq]
    exact hi.keep fun _ => rfl

/-- A call that keeps to the user's memory and mode. -/
theorem modeCall_mode (hi : k.ModeInv) {c : ModeCall}
    (hp : ∀ P, k.processes.get p = some P → P.context.sp = saved.sp)
    (hok : CallInUser saved c) (h : k.modeCall p c = .ok done) :
    ∃ k', done = some k' ∧ k'.ModeInv := by
  cases c with
  | call c =>
    obtain ⟨k1, hc, h⟩ := bind_eq_ok h
    cases h
    exact ⟨k1, rfl, call_mode hi hc⟩
  | sigaction sig ksa =>
    cases h
    cases hs : k.processSigaction p sig ksa with
    | none => exact absurd (hok (processSigaction_none hs).1) (processSigaction_none hs).2
    | some rk => exact ⟨_, rfl, setResult_mode (processSigaction_mode hi hs) p _⟩
  | sigprocmask how set =>
    cases h
    exact ⟨_, rfl, setResult_mode (processSigprocmask_mode hi how set) p _⟩
  | sigreturn m =>
    cases h
    refine ⟨_, rfl, hi.update fun P hP => ?_⟩
    rw [hp P hP]
    exact hok
  | exec lens image =>
    obtain ⟨done, he, h⟩ := bind_eq_ok h
    cases h
    cases done with
    | none =>
      obtain ⟨h1, h2⟩ := processExec_none he
      rcases hok with hok | hok
      · exact absurd h2 (by omega)
      · exact absurd hok h1
    | some rk =>
      refine ⟨_, rfl, ?_⟩
      simp only
      split
      · exact setResult_mode (processExec_mode hi he) p _
      · exact processExec_mode hi he
  | readv ds m iov iovcnt =>
    cases h
    refine ⟨k.setResult p (syscallReadv ds m iov iovcnt).ret, ?_, setResult_mode hi p _⟩
    exact if_pos (syscallReadv_inUser.mpr hok)
  | abort paged =>
    cases paged with
    | true =>
      cases h
      exact ⟨k, rfl, hi⟩
    | false =>
      simp only [modeCall] at h
      split at h
      · cases h
      · cases h
        exact ⟨_, rfl, processKill_mode hi _ _⟩
  | overrun => exact absurd hok (by simp [CallInUser])

theorem pushToStack_inUser (m : Bytes) {n : Nat} {words : List Nat}
    (hn : 4 * words.length = n) (h : InUser (pushAddress sp n, n)) :
    ∃ m', pushToStack m sp words = some (pushAddress sp n, m') := by
  subst hn
  unfold pushToStack
  rw [if_pos h]
  exact ⟨_, rfl⟩

theorem pushFrame_eq (mask : Sigset)
    (h : pushToStack m context.sp context.words = some (sp, m')) :
    pushFrame m context mask = pushToStack m' sp mask.words := by
  unfold pushFrame
  rw [h, Option.bind_eq_bind, Option.bind_some]

theorem pushFrame_inUser (m : Bytes) {mask : Sigset}
    (h : FrameInUser context.sp) : pushFrame m context mask ≠ none := by
  have hwords : 4 * context.words.length = 68 := by simp [ProcessContext.words]
  have hmask : 4 * mask.words.length = 8 := rfl
  obtain ⟨m1, h1⟩ := pushToStack_inUser m hwords h.1
  obtain ⟨m2, h2⟩ := pushToStack_inUser m1 hmask h.2
  rw [pushFrame_eq mask h1, h2]
  simp

/-- A process that is dispatched to user mode has the mode it is handed, or comes back with it. -/
theorem entered_mode (h : c.isUserMode = true) :
    (c.entered saved).isUserMode = true := by
  unfold ProcessContext.entered
  rw [if_pos h]
  unfold ProcessContext.isUserMode
  rw [Nat.and_two_pow_sub_one_eq_mod, beq_iff_eq]
  show (saved.cpsr / 32 * 32 + 0x10) % 2 ^ 5 = 0x10
  omega

theorem dispatched_mode (hi : k.ModeInv) (hp : k.processes.get p = some P)
    (h : Dispatched k p P m beyond d k' m') :
    k'.ModeInv ∧ ∀ c, d = .user c → c.isUserMode = true := by
  cases h with
  | resume => exact ⟨hi.keep fun _ => rfl, fun _ h => absurd h (by simp)⟩
  | exited _ _ he => exact ⟨processExit_mode hi he, fun _ h => absurd h (by simp)⟩
  | undisturbed =>
    refine ⟨hi, fun c h => ?_⟩
    cases h
    exact hi p P hp
  | ignored =>
    refine ⟨hi.keep fun _ => rfl, fun c h => ?_⟩
    cases h
    exact hi p P hp
  | handled =>
    refine ⟨hi.update fun _ _ => isUserMode_of_cpsr rfl, fun c h => ?_⟩
    cases h
    exact isUserMode_of_cpsr rfl
  | stray => exact ⟨hi, fun _ h => absurd h (by simp)⟩

theorem modeProceed_mode (hi : k.ModeInv) (hp : k.processes.get p = some P)
    {call : ModeCall} {k1 : Kernel}
    (hok : CallInUser saved call)
    (hframe : P.suspend = none → HasHandler P beyond → FrameInUser P.context.sp)
    (hd : Dispatched k p P m beyond d k1 m') (h : k1.modeProceed p saved call d = .ok done) :
    ∃ k', done = some k' ∧ k'.ModeInv := by
  obtain ⟨hi1, hc⟩ := dispatched_mode hi hp hd
  cases d with
  | user c =>
    have hmode : (c.entered saved).isUserMode = true := entered_mode (hc c rfl)
    refine modeCall_mode (hi1.update fun _ _ => hmode) (fun Q hQ => ?_) hok h
    obtain ⟨Q₀, _, rfl⟩ := Store.get_modify hQ
    rw [if_pos rfl]
    unfold ProcessContext.entered
    split <;> rfl
  | stray =>
    cases hd with
    | stray hs hh hnone => exact absurd hnone (pushFrame_inUser m (hframe hs hh))
  | exited =>
    cases h
    exact ⟨k1, rfl, hi1⟩
  | resume suspended =>
    cases call with
    | call c =>
      obtain ⟨k2, hpro, h⟩ := bind_eq_ok h
      cases h
      refine ⟨k2, rfl, ?_⟩
      cases suspended with
      | wait =>
        obtain ⟨⟨r, k3⟩, hw, hpro⟩ := bind_eq_ok hpro
        cases hpro
        exact waited_mode (processWaitLoop_mode hi1 hw) p r
      | other =>
        cases c with
        | other signal wakes sleep => exact otherCall_mode hi1 hpro
        | fork | exit | wait | kill => exact absurd hpro (by simp [proceed])
    | sigaction | sigprocmask | sigreturn | exec | readv | abort | overrun =>
      exact absurd h (by simp [modeProceed])

theorem modeStep_mode (hi : k.ModeInv) {a : ModeAct} (hok : k.ModeOk a) (h : ModeStep k a k') :
    k'.ModeInv := by
  suffices hdone : ∀ done, k.modeStep a = .ok done → ∃ k', done = some k' ∧ k'.ModeInv by
    cases h with
    | done h =>
      obtain ⟨k1, h1, hi1⟩ := hdone _ h
      cases h1
      exact hi1
    | stray h =>
      obtain ⟨k1, h1, _⟩ := hdone _ h
      cases h1
  intro done h
  cases a with
  | interrupt wakes =>
    obtain ⟨k1, hw, h⟩ := bind_eq_ok h
    cases h
    simp only [waitStep] at hw
    split at hw
    · cases hw
      exact ⟨_, rfl, (wakeQueues_mode hi).switch⟩
    · cases hw
  | dispatch entry call =>
    simp only [modeStep] at h
    cases hcur : k.currentProcess with
    | none =>
      rw [hcur] at h
      cases h
    | some p =>
      rw [hcur] at h
      obtain ⟨⟨d, k1, m'⟩, hd, h⟩ := bind_eq_ok h
      obtain ⟨done', hpro, h⟩ := bind_eq_ok h
      cases h
      obtain ⟨P, hp, hd⟩ := processDispatch_ok hd
      obtain ⟨k2, rfl, hi2⟩ := modeProceed_mode hi hp hok.1 (hok.2 p P hcur hp) hd hpro
      exact ⟨_, rfl, hi2.switch⟩

theorem ModeInv.userMode (hi : k.ModeInv) : k.UserMode := by
  intro p m beyond c k' m' hcur hd
  obtain ⟨P, hp, hd⟩ := processDispatch_ok hd
  exact (dispatched_mode hi hp hd).2 c rfl

theorem boot_mode (sp pc : Nat) : (boot sp pc).ModeInv := by
  refine ModeInv.switch fun p P hp => ?_
  obtain ⟨P₀, h0, rfl⟩ := Store.get_modify hp
  have h0 : (Store.empty.alloc (newProcess 1)).get p = some P₀ := h0
  by_cases hp0 : p = 0
  · subst hp0
    exact isUserMode_of_cpsr rfl
  · rw [Store.alloc_ne hp0] at h0
    exact absurd h0 (by simp [Store.empty])

end Kernel

/-- **Processes run in user mode.** In every run from the first dispatch whose steps meet
`ModeOk`, every context that is handed to a process has the user mode. -/
theorem user_mode {sp pc : Nat} {as : List ModeAct} {k : Kernel}
    (hr : Run (Guarded Kernel.ModeOk Kernel.ModeStep) (.boot sp pc) as k) : k.UserMode :=
  (hr.invariant (Kernel.boot_mode sp pc) fun _ _ _ hi h => Kernel.modeStep_mode hi h.1 h.2).userMode

/-- A dispatch after which the process enters the kernel with zeroed registers. -/
def plainDispatch (c : ModeCall) : ModeAct := .dispatch ⟨fun _ => 0, ⟨0, 0, 0, 0⟩, .zero⟩ c

/-- A process returns from a signal handler with a frame that has the user mode. -/
theorem user_mode_sigreturn : ∃ k, Run (Guarded Kernel.ModeOk Kernel.ModeStep) (.boot 0 0)
    [plainDispatch (.sigreturn fun _ => 0x10)] k ∧ k.currentProcess = some 0 ∧ k.UserMode := by
  have hsignal : ((Kernel.boot 0 0).processes.get 0).map Kernel.nextSignal = some 0 := by
    decide
  have hcurrent : (Kernel.boot 0 0).currentProcess = some 0 := by decide
  have hview : ((Kernel.boot 0 0).modeStep (plainDispatch (.sigreturn fun _ => 0x10))).toOption.bind
      (fun k => k.bind fun k => k.currentProcess) = some 0 := by decide
  have hok : (Kernel.boot 0 0).ModeOk (plainDispatch (.sigreturn fun _ => 0x10)) := by
    refine ⟨by unfold Kernel.CallInUser; decide, fun p P hcur hP _ hh => ?_⟩
    rw [hcurrent] at hcur
    cases hcur
    rw [hP] at hsignal
    exact absurd (Option.some.inj hsignal) hh.1
  cases hk : (Kernel.boot 0 0).modeStep (plainDispatch (.sigreturn fun _ => 0x10)) with
  | error e => exact absurd hview (by simp [hk, Except.toOption])
  | ok done =>
    cases done with
    | none => exact absurd hview (by simp [hk, Except.toOption])
    | some k =>
      simp only [hk] at hview
      have hrun : Run (Guarded Kernel.ModeOk Kernel.ModeStep) (.boot 0 0)
          [plainDispatch (.sigreturn fun _ => 0x10)] k := Run.nil.snoc ⟨hok, .done hk⟩
      exact ⟨k, hrun, hview, user_mode hrun⟩

/-- A process returns from a signal handler with a frame in which every byte is `0x13`: its
next context has the supervisor mode. -/
theorem user_mode_lost : ¬ ∀ (sp pc : Nat) (as : List ModeAct) (k : Kernel),
    Run Kernel.ModeStep (.boot sp pc) as k → k.UserMode := by
  intro h
  have hview : ((Kernel.boot 0 0).modeStep (plainDispatch (.sigreturn fun _ => 0x13))).toOption.bind
      (fun k => k.bind fun k => k.currentProcess.bind fun p => (k.processes.get p).map fun P =>
        (p, P.suspend, Kernel.nextSignal P, P.context.isUserMode)) = some (0, none, 0, false) := by
    decide
  cases hk : (Kernel.boot 0 0).modeStep (plainDispatch (.sigreturn fun _ => 0x13)) with
  | error e => exact absurd hview (by simp [hk, Except.toOption])
  | ok done =>
    cases done with
    | none => exact absurd hview (by simp [hk, Except.toOption])
    | some k =>
      simp only [hk, Except.toOption, Option.bind_some] at hview
      obtain ⟨p, hcur, hview⟩ := Option.bind_eq_some_iff.mp hview
      obtain ⟨P, hP, hview⟩ := Option.map_eq_some_iff.mp hview
      obtain ⟨-, hs, hsig, hmode⟩ : p = 0 ∧ P.suspend = none ∧ Kernel.nextSignal P = 0
          ∧ P.context.isUserMode = false := by simpa using hview
      have hd : k.processDispatch p (fun _ => 0) ⟨0, 0, 0, 0⟩
          = .ok (.user P.context, k, fun _ => 0) := by
        unfold Kernel.processDispatch
        simp [hP, hs, hsig]
      have huser := h 0 0 [plainDispatch (.sigreturn fun _ => 0x13)] k (Run.nil.snoc (.done hk))
        p _ _ _ _ _ hcur hd
      rw [hmode] at huser
      cases huser

end Cyanurus
