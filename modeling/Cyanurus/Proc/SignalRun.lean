import Cyanurus.Proc.Descriptors
import Cyanurus.Proc.ModeRun

/-!
# Runs of system calls and signal deliveries

The signals of a process are written by a few functions: `process_kill`, `process_sigaction`,
`process_sigprocmask`, `process_sigreturn`, `process_fork`, `process_exec` and
`process_dispatch`. `SigStep` has a step for each of them, by any process that is ready. All
the rest of the kernel is one step, `other`, which leaves every signal alone and wakes no
process that is dead.

**`kill_and_stop_unblocked`**: `SIGKILL` and `SIGSTOP` are in no mask, as long as `sigreturn`
loads no mask that has them. It does not look: `sigreturn_blocks` is a run in which a frame
of the process's own making blocks all signals.
-/

namespace Cyanurus

open Lts

/-! ## Signal sets -/

/-- `sigismember`; a number that is no signal is in no set. -/
def sigismember (set : Sigset) (signum : Nat) : Bool :=
  decide (1 ≤ signum ∧ signum < nsig) && set.getLsbD (signum - 1)

section Sets

variable {set set' : Sigset} {n m : Nat}

theorem sigismember_or : sigismember (set ||| set') m = (sigismember set m || sigismember set' m) := by
  simp [sigismember, Bool.and_or_distrib_left]

theorem sigismember_and : sigismember (set &&& set') m = (sigismember set m && sigismember set' m) := by
  unfold sigismember
  cases decide (1 ≤ m ∧ m < nsig) <;> simp

theorem sigismember_bit (hn : 1 ≤ n ∧ n < nsig) (hm : 1 ≤ m ∧ m < nsig) :
    (1#64 <<< (n - 1)).getLsbD (m - 1) = decide (m = n) := by
  have hn64 : n - 1 < 64 := by unfold nsig at hn; omega
  have heq : (n - 1 = m - 1) ↔ m = n := by omega
  rw [← BitVec.twoPow_eq]
  simp [hn64, heq]

theorem sigismember_sigaddset :
    sigismember (sigaddset set n) m = (sigismember set m || decide (m = n ∧ 1 ≤ n ∧ n < nsig)) := by
  unfold sigaddset
  split
  · have hno : ¬ (m = n ∧ 1 ≤ n ∧ n < nsig) := by omega
    simp [hno]
  · have hn : 1 ≤ n ∧ n < nsig := by omega
    rw [sigismember_or]
    congr 1
    unfold sigismember
    by_cases hm : 1 ≤ m ∧ m < nsig
    · rw [sigismember_bit hn hm]
      simp [hm, hn]
    · have hno : m ≠ n := fun h => hm (h ▸ hn)
      simp [hm, hno]

theorem sigismember_sigdelset : sigismember (sigdelset set n) m = (sigismember set m && decide (m ≠ n)) := by
  unfold sigdelset
  split
  · by_cases hm : m = n
    · have hno : ¬ (1 ≤ m ∧ m < nsig) := by omega
      simp [sigismember, hno]
    · simp [hm]
  · have hn : 1 ≤ n ∧ n < nsig := by omega
    rw [sigismember_and]
    by_cases hm : 1 ≤ m ∧ m < nsig
    · have hm64 : m - 1 < 64 := by unfold nsig at hm; omega
      congr 1
      unfold sigismember
      rw [BitVec.getLsbD_not, sigismember_bit hn hm]
      simp [hm, hm64]
    · simp [sigismember, hm]

/-- `sigpeekset` finds a signal of the set. -/
theorem sigismember_sigpeekset (h : sigpeekset set ≠ 0) : sigismember set (sigpeekset set) = true := by
  unfold sigpeekset at h ⊢
  cases hf : (List.range 64).find? fun i => set.getLsbD i with
  | none =>
    rw [hf] at h
    exact absurd rfl h
  | some i =>
    have hbit : set.getLsbD i = true := by simpa using List.find?_some hf
    have hi : i < 64 := List.mem_range.mp (List.mem_of_find?_eq_some hf)
    have hsig : 1 ≤ i + 1 ∧ i + 1 < nsig := by unfold nsig; omega
    simp [sigismember, hsig, hbit]

end Sets

/-- The signal that a dispatch acts on is pending. -/
theorem Kernel.nextSignal_pending {P : Process} (h : Kernel.nextSignal P ≠ 0) :
    sigismember P.signal.pending (Kernel.nextSignal P) = true := by
  have hmem := sigismember_sigpeekset h
  rw [sigismember_and, Bool.and_eq_true] at hmem
  exact hmem.1

/-! ## The system -/

inductive SigAct where
  | create (sp pc : Nat)
  | kill (pid sig : Int)
  | sigaction (p : Nat) (sig : Int) (ksa : Option KSigaction)
  | sigprocmask (p : Nat) (how : Int) (set : Option Sigset)
  | sigreturn (p : Nat) (m : Bytes)
  | fork (p : Nat)
  | exec (p : Nat) (lens : List Nat) (image : Option (Nat × Nat))
  | exit (p : Nat) (status : Int)
  | dispatch (p : Nat) (m : Bytes) (beyond : KSigaction)
  /-- Any other call, or an interrupt. -/
  | other
  /-- Any other call one of whose stores is stray. -/
  | overrun

/-- The process that acts. -/
def SigAct.caller : SigAct → Option Nat
  | .sigaction p _ _ | .sigprocmask p _ _ | .sigreturn p _ | .fork p | .exec p _ _ | .exit p _
  | .dispatch p _ _ => some p
  | .create _ _ | .kill _ _ | .other | .overrun => none

namespace Kernel

/-- A call; `none` if one of its stores is stray. -/
def sigCall (k : Kernel) : SigAct → Except Halt (Option Kernel)
  | .create sp pc => .ok (some (k.processCreate sp pc))
  | .kill pid sig => .ok (some (k.processKill pid sig).2)
  | .sigaction p sig ksa => .ok ((k.processSigaction p sig ksa).map Prod.snd)
  | .sigprocmask p how set => .ok (some (k.processSigprocmask p how set).2)
  | .sigreturn p m => .ok (some (k.processSigreturn p m))
  | .fork p => do
      let (_, k) ← k.processFork p
      .ok (some k)
  | .exec p lens image => do
      let done ← k.processExec p lens image
      .ok (done.map Prod.snd)
  | .exit p status => do
      let k ← k.processExit p status
      .ok (some k)
  | .dispatch p m beyond => do
      let (d, k, _) ← k.processDispatch p m beyond
      .ok (match d with
        | .stray => none
        | _ => some k)
  | .other => .error .unknown
  | .overrun => .ok none

/-- A call by a process that is ready. -/
def sigStep (k : Kernel) (a : SigAct) : Except Halt (Option Kernel) :=
  if ∀ p ∈ a.caller, k.isReady p = true then k.sigCall a else .error .unknown

/-- No process has other signals than before, none is new, and none comes back to life. -/
structure SignalsKept (k k' : Kernel) : Prop where
  next : k'.processes.next = k.processes.next
  back : ∀ {p P'}, k'.processes.get p = some P' → ∃ P, k.processes.get p = some P
    ∧ P'.signal = P.signal ∧ (P.state = .dead → P'.state = .dead)

/-- The steps of the kernel; a stray store may lead anywhere. -/
inductive SigStep : Kernel → SigAct → Kernel → Prop
  | done {k k' : Kernel} {a : SigAct} : k.sigStep a = .ok (some k') → SigStep k a k'
  | stray {k k' : Kernel} {a : SigAct} : k.sigStep a = .ok none → SigStep k a k'
  | other {k k' : Kernel} : k.SignalsKept k' → k'.Queued → SigStep k .other k'

/-- What keeps the stores of a step where they belong: no action for signal 64 is stored, an
argument list fits its page or is refused, and a handler is entered with a stack pointer in
the user range. -/
def InBounds (k : Kernel) : SigAct → Prop
  | .sigaction _ sig ksa => sig = 64 → ksa = none
  | .exec _ lens _ => argTotal lens ≤ argMax ∨ argSize lens > argMax
  | .dispatch p _ beyond => ∀ P ∈ k.processes.get p, P.suspend = none → HasHandler P beyond →
      FrameInUser P.context.sp
  | .overrun => False
  | _ => True

variable {k k' k'' : Kernel} {p : Nat} {P : Process}

/-! ## Stores that stay in bounds -/

theorem sigCall_inBounds {a : SigAct} (hok : k.InBounds a) : k.sigCall a ≠ .ok none := by
  intro h
  cases a with
  | create | kill | sigprocmask | sigreturn | other => exact absurd h (by simp [sigCall])
  | overrun => exact hok
  | sigaction p sig ksa =>
    have hnone : k.processSigaction p sig ksa = none := by
      simpa [sigCall] using h
    obtain ⟨hsig, hksa⟩ := processSigaction_none hnone
    exact hksa (hok hsig)
  | fork p =>
    obtain ⟨⟨r, k1⟩, _, h⟩ := bind_eq_ok h
    cases h
  | exec p lens image =>
    obtain ⟨done, hexec, h⟩ := bind_eq_ok h
    cases done with
    | some done => cases h
    | none =>
      obtain ⟨hsize, htotal⟩ := processExec_none hexec
      rcases hok with hok | hok
      · omega
      · exact hsize hok
  | exit p status =>
    obtain ⟨k1, _, h⟩ := bind_eq_ok h
    cases h
  | dispatch p m beyond =>
    obtain ⟨⟨d, k1, m'⟩, hd, h⟩ := bind_eq_ok h
    obtain ⟨P, hp, hd⟩ := processDispatch_ok hd
    cases hd with
    | stray hs hh hnone => exact pushFrame_inUser m (hok P hp hs hh) hnone
    | resume | exited | undisturbed | ignored | handled => cases h

/-- A step in bounds is a call by a process that is ready, or none that has to do with signals. -/
theorem sigStep_cases {a : SigAct} (hok : k.InBounds a) (h : SigStep k a k') :
    ((∀ p ∈ a.caller, k.isReady p = true) ∧ k.sigCall a = .ok (some k'))
      ∨ (a = .other ∧ k.SignalsKept k' ∧ k'.Queued) := by
  cases h with
  | done h =>
    unfold sigStep at h
    split at h
    · exact .inl ⟨‹_›, h⟩
    · cases h
  | stray h =>
    unfold sigStep at h
    split at h
    · exact absurd h (sigCall_inBounds hok)
    · cases h
  | other hkept hq => exact .inr ⟨rfl, hkept, hq⟩

/-! ## Steps that leave the signals alone -/

theorem SignalsKept.refl (k : Kernel) : k.SignalsKept k := ⟨rfl, fun hP => ⟨_, hP, rfl, id⟩⟩

theorem SignalsKept.trans (h : k.SignalsKept k') (h' : k'.SignalsKept k'') : k.SignalsKept k'' := by
  refine ⟨h'.next.trans h.next, fun {p P''} hP'' => ?_⟩
  obtain ⟨P', hP', hsignal', hdead'⟩ := h'.back hP''
  obtain ⟨P, hP, hsignal, hdead⟩ := h.back hP'
  exact ⟨P, hP, hsignal'.trans hsignal, hdead' ∘ hdead⟩

/-- A change of other fields of a process. -/
theorem SignalsKept.update (k : Kernel) (p : Nat) {f : Process → Process}
    (hf : ∀ P, (f P).signal = P.signal ∧ (f P).state = P.state) : k.SignalsKept (k.update p f) := by
  refine ⟨rfl, fun {q Q'} hQ' => ?_⟩
  obtain ⟨Q, hQ, rfl⟩ := Store.get_modify hQ'
  refine ⟨Q, hQ, ?_⟩
  split
  · exact ⟨(hf Q).1, fun hdead => (hf Q).2.trans hdead⟩
  · exact ⟨rfl, id⟩

theorem Queued.keepSignals (hq : k.Queued) (p : Nat) {f : Process → Process}
    (hf : ∀ P, (f P).signal = P.signal ∧ (f P).state = P.state) :
    (k.update p f).Queued ∧ k.SignalsKept (k.update p f) :=
  ⟨hq.update p fun P => (hf P).2, .update k p hf⟩

/-- A process that is woken was not dead. -/
theorem SignalsKept.of_rel (hn : k'.processes.next = k.processes.next)
    (h : k.processes.Rel Process.Roused k'.processes) : k.SignalsKept k' := by
  refine ⟨hn, fun {p P'} hP' => ?_⟩
  obtain ⟨P, hP, hroused⟩ := h.back hP'
  refine ⟨P, hP, ?_⟩
  rcases hroused with rfl | ⟨hblocked, rfl⟩
  · exact ⟨rfl, id⟩
  · exact ⟨rfl, fun hdead => absurd (hblocked.symm.trans hdead) (by simp)⟩

theorem releaseFile_signals (hq : k.Queued) {file : Nat} (h : k.releaseFile file = .ok k') :
    k'.Queued ∧ k.SignalsKept k' := by
  obtain ⟨hq', hroused⟩ := releaseFile_roused hq h
  exact ⟨hq', .of_rel hroused.next hroused.rel⟩

theorem releaseFiles_signals {is : List (Fin maxFdSize)} (hq : k.Queued)
    (h : k.releaseFiles p is = .ok k') : k'.Queued ∧ k.SignalsKept k' :=
  releaseFiles_rule SignalsKept.refl SignalsKept.trans
    (fun k _ => .update k p fun _ => ⟨rfl, rfl⟩) (fun hr => .of_rel hr.next hr.rel) hq h

theorem closeMarked_signals : ∀ {is : List (Fin maxFdSize)} {k : Kernel}, k.Queued →
    k.closeMarked p is = .ok k' → k'.Queued ∧ k.SignalsKept k'
  | [], _, hq, h => by
    cases h
    exact ⟨hq, .refl k'⟩
  | i :: is, k, hq, h => by
    unfold closeMarked at h
    split at h
    · exact closeMarked_signals hq h
    · obtain ⟨k1, h1, h⟩ := bind_eq_ok h
      obtain ⟨hq1, hkept1⟩ := releaseFile_signals hq h1
      obtain ⟨hq2, hkept2⟩ := hq1.keepSignals p (f := fun P => { P with
        files := P.files.set i none
        closeOnExec := P.closeOnExec.set i false }) fun _ => ⟨rfl, rfl⟩
      obtain ⟨hq', hkept'⟩ := closeMarked_signals hq2 h
      exact ⟨hq', (hkept1.trans hkept2).trans hkept'⟩

/-- What is left of a process that exits has its signals, and it is dead. -/
theorem processExit_signals (hq : k.Queued) (hready : k.isReady p = true) {status : Int}
    (h : k.processExit p status = .ok k') : k'.Queued
      ∧ (k.update p fun P => { P with state := .dead, exitStatus := status }).SignalsKept k' := by
  obtain ⟨k1, hrel, h⟩ := bind_eq_ok h
  cases h
  obtain ⟨P, hP, hstate⟩ := isReady_iff.mp hready
  obtain ⟨hq1, hkept1⟩ := releaseFiles_signals
    (hq.awake hP (by rw [hstate]; simp) fun P => { P with state := .dead, exitStatus := status }) hrel
  obtain ⟨hq2, hwake⟩ := hq1.wake .child
  have hnext : (k1.processWake .child).2.processes.next = k1.processes.next := by
    unfold processWake
    cases k1.waitqs .child with
    | nil => rfl
    | cons r rest => rfl
  exact ⟨hq2, hkept1.trans (.of_rel hnext hwake)⟩

/-! ## What a step does to the signals of a process -/

/-- The signals that process `q` may have after a step. -/
inductive SignalAfter (k : Kernel) : SigAct → Nat → ProcessSignal → Prop
  | kept {a : SigAct} {q : Nat} {Q : Process} : k.processes.get q = some Q →
      SignalAfter k a q Q.signal
  | created {sp pc : Nat} : SignalAfter k (.create sp pc) k.processes.next (newProcess k.maxId).signal
  | forked {p : Nat} {P : Process} : k.processes.get p = some P →
      SignalAfter k (.fork p) k.processes.next P.signal
  | killed {pid sig : Int} {q : Nat} {Q : Process} : k.processes.get q = some Q →
      SignalAfter k (.kill pid sig) q
        { Q.signal with pending := sigaddset Q.signal.pending sig.toNat }
  | installed {sig : Int} {ksa : KSigaction} {q : Nat} {Q : Process} (h : sig.toNat < 64) :
      ¬ (sig = sigkill ∨ sig = sigstop) → k.processes.get q = some Q →
      SignalAfter k (.sigaction q sig (some ksa)) q { Q.signal with
        actions := Q.signal.actions.set sig.toNat
          { ksa with mask := sigdelset (sigdelset ksa.mask sigkill) sigstop } }
  | masked {how : Int} {arg : Option Sigset} {mask : Sigset} {q : Nat} {Q : Process} :
      k.processes.get q = some Q → (∃ set, mask = sigdelset (sigdelset set sigkill) sigstop)
        ∨ (∃ set, mask = Q.signal.mask &&& set) →
      SignalAfter k (.sigprocmask q how arg) q { Q.signal with mask }
  | returned {m : Bytes} {q : Nat} {Q : Process} : k.processes.get q = some Q →
      SignalAfter k (.sigreturn q m) q
        { Q.signal with mask := BitVec.ofNat 64 (m.load 8 Q.context.sp) }
  | reset {lens : List Nat} {image : Option (Nat × Nat)} {q : Nat} {Q : Process} :
      k.processes.get q = some Q →
      SignalAfter k (.exec q lens image) q
        { Q.signal with actions := resetHandlers Q.signal.actions }
  | ignored {m : Bytes} {beyond : KSigaction} {q : Nat} {Q : Process} : k.processes.get q = some Q →
      SignalAfter k (.dispatch q m beyond) q
        { Q.signal with pending := sigdelset Q.signal.pending (nextSignal Q) }
  | handled {m : Bytes} {beyond : KSigaction} {q : Nat} {Q : Process} : k.processes.get q = some Q →
      HasHandler Q beyond → SignalAfter k (.dispatch q m beyond) q
        { Q.signal with
          mask := sigaddset (Q.signal.mask ||| (action Q beyond (nextSignal Q)).mask) (nextSignal Q)
          pending := sigdelset Q.signal.pending (nextSignal Q) }

/-- **What a step does.** Every process has signals that the step can leave it with, one that is
dead stays so, and a process that is made gets a new name. -/
structure Signalled (k : Kernel) (a : SigAct) (k' : Kernel) : Prop where
  next : k.processes.next ≤ k'.processes.next
  fork : ∀ p, a = .fork p → k.processes.next < k'.processes.next
  after : ∀ {q Q'}, k'.processes.get q = some Q' → SignalAfter k a q Q'.signal
  dead : ∀ {q Q Q'}, k.processes.get q = some Q → k'.processes.get q = some Q' →
    Q.state = .dead → Q'.state = .dead

variable {a : SigAct}

theorem Signalled.refl (k : Kernel) (ha : ∀ p, a ≠ .fork p) : Signalled k a k := by
  refine ⟨Nat.le_refl _, fun p h => absurd h (ha p), .kept, fun hQ hQ' hdead => ?_⟩
  rw [hQ] at hQ'
  exact Option.some.inj hQ' ▸ hdead

theorem Signalled.then (h : Signalled k a k') (h' : k'.SignalsKept k'') : Signalled k a k'' := by
  refine ⟨h'.next ▸ h.next, fun p ha => h'.next ▸ h.fork p ha, fun hQ => ?_, fun hQ hQ' hdead => ?_⟩
  · obtain ⟨Q', hQ', hsignal, _⟩ := h'.back hQ
    exact hsignal ▸ h.after hQ'
  · obtain ⟨Q₁, hQ₁, _, hkept⟩ := h'.back hQ'
    exact hkept (h.dead hQ hQ₁ hdead)

/-- A change of one process. -/
theorem Signalled.update {f : Process → Process} (ha : ∀ p, a ≠ .fork p)
    (hf : ∀ P, k.processes.get p = some P → SignalAfter k a p (f P).signal)
    (hdead : ∀ P, P.state = .dead → (f P).state = .dead) : Signalled k a (k.update p f) := by
  refine ⟨Nat.le_refl _, fun p h => absurd h (ha p), fun hQ' => ?_, fun hQ hQ' hd => ?_⟩
  · obtain ⟨Q, hQ, rfl⟩ := Store.get_modify hQ'
    split
    · rename_i hqp
      subst hqp
      exact hf Q hQ
    · exact .kept hQ
  · obtain ⟨Q₀, hQ₀, rfl⟩ := Store.get_modify hQ'
    rw [hQ] at hQ₀
    cases hQ₀
    split
    · exact hdead _ hd
    · exact hd

theorem processCreate_signalled (hq : k.Queued) (sp pc : Nat) : (k.processCreate sp pc).Queued
    ∧ Signalled k (.create sp pc) (k.processCreate sp pc) := by
  refine ⟨hq.sub (fun q => List.Sublist.refl _) fun {p q P} _ hP => ⟨P, ?_, rfl⟩,
    ⟨Nat.le_succ _, by simp, fun hQ' => ?_, fun hQ hQ' hdead => ?_⟩⟩
  · rw [processCreate_get, if_neg (Nat.ne_of_lt (Store.lt_next hP)), hP]
  · rw [processCreate_get] at hQ'
    split at hQ'
    · rename_i hnew
      subst hnew
      cases hQ'
      exact .created
    · exact .kept hQ'
  · rw [processCreate_get, if_neg (Nat.ne_of_lt (Store.lt_next hQ)), hQ] at hQ'
    exact Option.some.inj hQ' ▸ hdead

theorem processFork_signalled (hq : k.Queued) {r : Nat} (h : k.processFork p = .ok (r, k')) :
    k'.Queued ∧ Signalled k (.fork p) k' := by
  obtain ⟨P, hp, hcount⟩ := processFork_ok h
  obtain ⟨files, pipes, rfl⟩ := countupFiles_files hcount
  have hold : ∀ {q Q}, k.processes.get q = some Q →
      ∃ Q', (k.forkProcess p P).processes.get q = some Q' ∧ Q'.state = Q.state := by
    intro q Q hQ
    rw [forkProcess_get hp, if_neg (Nat.ne_of_lt (Store.lt_next hQ))]
    split
    · rename_i hqp
      rw [hqp, hp] at hQ
      cases hQ
      exact ⟨_, rfl, rfl⟩
    · exact ⟨Q, hQ, rfl⟩
  refine ⟨hq.sub (fun q => List.Sublist.refl _) fun _ hQ => hold hQ,
    ⟨Nat.le_succ _, fun _ _ => Nat.lt_succ_self _, fun hQ' => ?_, fun hQ hQ' hdead => ?_⟩⟩
  · rcases forkProcess_cases hp hQ' with ⟨rfl, rfl⟩ | ⟨rfl, rfl⟩ | hQ
    · exact .forked (P := P) hp
    · exact .kept (Q := P) hp
    · exact .kept hQ
  · obtain ⟨Q₁, hQ₁, hstate⟩ := hold hQ
    cases hQ₁.symm.trans hQ'
    exact hstate.trans hdead

theorem processExit_signalled (hq : k.Queued) (hready : k.isReady p = true) {status : Int}
    (h : k.processExit p status = .ok k') (ha : ∀ p, a ≠ .fork p) :
    k'.Queued ∧ Signalled k a k' := by
  obtain ⟨hq', hkept⟩ := processExit_signals hq hready h
  refine ⟨hq', .then (.update ha ?_ ?_) hkept⟩
  · exact fun P hP => .kept (Q := P) hP
  · exact fun _ _ => rfl

theorem processExec_signalled (hq : k.Queued) {lens : List Nat} {image : Option (Nat × Nat)} {r : Int}
    (h : k.processExec p lens image = .ok (some (r, k'))) :
    k'.Queued ∧ Signalled k (.exec p lens image) k' := by
  rcases processExec_cases h with ⟨_, rfl⟩ | ⟨sp, pc, k1, hclose, rfl⟩
  · exact ⟨hq, .refl _ (by simp)⟩
  obtain ⟨hq1, hclosed⟩ := closeMarked_signals (hq.update p (by simp)) hclose
  refine ⟨hq1.update p (by simp), .then (.then (.update (by simp) ?_ ?_) hclosed) (.update k1 p (by simp))⟩
  · exact fun P hP => .reset (Q := P) hP
  · exact fun _ => id

theorem dispatched_signalled (hq : k.Queued) (hready : k.isReady p = true)
    (hp : k.processes.get p = some P) {m m' : Bytes} {beyond : KSigaction} {d : Dispatch}
    (h : Dispatched k p P m beyond d k' m') : k'.Queued ∧ Signalled k (.dispatch p m beyond) k' := by
  cases h with
  | resume =>
    exact ⟨hq.update p fun _ => rfl, .update (by simp) (fun P hP => .kept (Q := P) hP) fun _ => id⟩
  | exited _ _ he => exact processExit_signalled hq hready he (by simp)
  | undisturbed | stray => exact ⟨hq, .refl k (by simp)⟩
  | ignored =>
    refine ⟨hq.update p fun _ => rfl, .update (by simp) (fun Q hQ => ?_) fun _ => id⟩
    rw [hp] at hQ
    cases hQ
    exact .ignored (Q := P) hp
  | handled _ hh =>
    refine ⟨hq.update p fun _ => rfl, .update (by simp) (fun Q hQ => ?_) fun _ => id⟩
    rw [hp] at hQ
    cases hQ
    exact .handled (Q := P) hp hh

theorem sigStep_signalled (hq : k.Queued) (hok : k.InBounds a) (h : SigStep k a k') :
    k'.Queued ∧ Signalled k a k' := by
  rcases sigStep_cases hok h with ⟨hready, h⟩ | ⟨rfl, hkept, hq'⟩
  · cases a with
    | create sp pc =>
      cases h
      exact processCreate_signalled hq sp pc
    | kill pid sig =>
      cases h
      rcases processKill_cases k pid sig with heq | ⟨p, _, _, heq⟩
      · rw [heq]
        exact ⟨hq, .refl k (by simp)⟩
      · rw [heq]
        exact ⟨hq.update p fun _ => rfl, .update (by simp) (fun P hP => .killed (Q := P) hP) fun _ => id⟩
    | sigaction p sig ksa =>
      obtain ⟨⟨r, k1⟩, hs, rfl⟩ := Option.map_eq_some_iff.mp (Except.ok.inj h)
      rcases processSigaction_cases hs with rfl | ⟨act, h64, rfl, hsig, rfl⟩
      · exact ⟨hq, .refl _ (by simp)⟩
      · exact ⟨hq.update p fun _ => rfl,
          .update (by simp) (fun P hP => .installed (Q := P) h64 hsig hP) fun _ => id⟩
    | sigprocmask p how set =>
      cases h
      rcases processSigprocmask_cases k p how set with heq | ⟨_, heq, hmask⟩
      · rw [heq]
        exact ⟨hq, .refl k (by simp)⟩
      · rw [heq]
        exact ⟨hq.update p fun _ => rfl,
          .update (by simp) (fun P hP => .masked (Q := P) hP (hmask _)) fun _ => id⟩
    | sigreturn p m =>
      cases h
      exact ⟨hq.update p fun _ => rfl, .update (by simp) (fun P hP => .returned (Q := P) hP) fun _ => id⟩
    | fork p =>
      obtain ⟨⟨r, k1⟩, hf, h⟩ := bind_eq_ok h
      cases h
      exact processFork_signalled hq hf
    | exec p lens image =>
      obtain ⟨done, hexec, h⟩ := bind_eq_ok h
      obtain ⟨⟨r, k1⟩, rfl, rfl⟩ := Option.map_eq_some_iff.mp (Except.ok.inj h)
      exact processExec_signalled hq hexec
    | exit p status =>
      obtain ⟨k1, he, h⟩ := bind_eq_ok h
      cases h
      exact processExit_signalled hq (hready p rfl) he (by simp)
    | dispatch p m beyond =>
      obtain ⟨⟨d, k1, m'⟩, hd, h⟩ := bind_eq_ok h
      obtain ⟨P, hp, hd⟩ := processDispatch_ok hd
      have hdone := dispatched_signalled hq (hready p rfl) hp hd
      cases d with
      | stray => cases h
      | resume | exited | user =>
        cases h
        exact hdone
    | other => exact absurd h (by simp [sigCall])
    | overrun => exact absurd h (by simp [sigCall])
  · exact ⟨hq', .then (.refl k (by simp)) hkept⟩

end Kernel

/-! ## Masks -/

/-- Neither `SIGKILL` nor `SIGSTOP` is in the set. -/
def Unblocked (set : Sigset) : Prop :=
  sigismember set sigkill = false ∧ sigismember set sigstop = false

instance (set : Sigset) : Decidable (Unblocked set) := inferInstanceAs (Decidable (_ ∧ _))

section Unblocked

variable {set set' : Sigset}

theorem Unblocked.or (h : Unblocked set) (h' : Unblocked set') : Unblocked (set ||| set') := by
  simp [Unblocked, sigismember_or, h.1, h.2, h'.1, h'.2]

theorem Unblocked.and (h : Unblocked set) (set' : Sigset) : Unblocked (set &&& set') := by
  simp [Unblocked, sigismember_and, h.1, h.2]

theorem Unblocked.sigaddset {n : Nat} (h : Unblocked set) (hkill : n ≠ sigkill) (hstop : n ≠ sigstop) :
    Unblocked (sigaddset set n) := by
  simp [Unblocked, sigismember_sigaddset, h.1, h.2, hkill.symm, hstop.symm]

/-- What `process_sigaction` and `process_sigprocmask` make of a set. -/
theorem Unblocked.of_cleared (set : Sigset) : Unblocked (sigdelset (sigdelset set sigkill) sigstop) := by
  simp [Unblocked, sigismember_sigdelset]

end Unblocked

/-- The sets that can get into a mask have neither signal, and neither signal is caught. -/
structure ProcessSignal.Clean (s : ProcessSignal) : Prop where
  mask : Unblocked s.mask
  actions : ∀ (i : Nat) (hi : i < 64), Unblocked s.actions[i].mask
  uncaught : ∀ (i : Nat) (hi : i < 64), i = sigkill ∨ i = sigstop → s.actions[i].handler = sigDfl

namespace Kernel

variable {k k' : Kernel} {p : Nat} {P : Process}

/-- All processes have clean signals. -/
def MaskInv (k : Kernel) : Prop := ∀ p P, k.processes.get p = some P → P.signal.Clean

theorem newProcess_clean (id : Nat) : (newProcess id).signal.Clean := by
  have hempty : Unblocked 0 := by decide
  refine ⟨hempty, fun i hi => ?_, fun i hi _ => ?_⟩
  · simp only [newProcess, Vector.getElem_replicate]
    exact hempty
  · simp [newProcess, sigDfl]

theorem resetHandlers_clean (h : P.signal.Clean) :
    ({ P.signal with actions := resetHandlers P.signal.actions } : ProcessSignal).Clean := by
  refine ⟨h.mask, fun i hi => ?_, fun i hi hboth => ?_⟩
  · have hmask := h.actions i hi
    simp only [resetHandlers, Vector.getElem_map]
    split
    · exact hmask
    · exact hmask
  · have hdefault := h.uncaught i hi hboth
    simp [resetHandlers, hdefault]

/-- The action of a signal that is caught adds neither signal to the mask. -/
theorem HasHandler.clean {beyond : KSigaction} (h : HasHandler P beyond) (hc : P.signal.Clean)
    (hbeyond : nextSignal P = 64 → Unblocked beyond.mask) :
    Unblocked (sigaddset (P.signal.mask ||| (action P beyond (nextSignal P)).mask) (nextSignal P)) := by
  have hrange : nextSignal P < nsig := by
    have hmem := nextSignal_pending h.1
    simp only [sigismember, Bool.and_eq_true, decide_eq_true_eq] at hmem
    exact hmem.1.2
  by_cases h64 : nextSignal P < 64
  · have haction : action P beyond (nextSignal P) = P.signal.actions[nextSignal P] := by
      simp [action, h64]
    have hcaught : ¬ (nextSignal P = sigkill ∨ nextSignal P = sigstop) := fun hboth =>
      h.2.1 (haction ▸ hc.uncaught _ h64 hboth)
    rw [haction]
    exact (hc.mask.or (hc.actions _ h64)).sigaddset (fun h => hcaught (.inl h))
      (fun h => hcaught (.inr h))
  · have h64 : nextSignal P = 64 := by unfold nsig at hrange; omega
    rw [h64]
    exact (hc.mask.or (hbeyond h64)).sigaddset (by decide) (by decide)

/-! ## The condition -/

/-- The masks that are not the kernel's own have neither signal: the one that `sigreturn`
loads from the user stack and, when signal 64 is delivered, the one that lies behind the table
of actions. -/
def LoadsUnblocked (k : Kernel) : SigAct → Prop
  | .sigreturn p m => ∀ P ∈ k.processes.get p, Unblocked (BitVec.ofNat 64 (m.load 8 P.context.sp))
  | .dispatch p _ beyond => ∀ P ∈ k.processes.get p, nextSignal P = 64 → Unblocked beyond.mask
  | _ => True

/-- What a step asks of the state it starts from. -/
def MaskOk (k : Kernel) (a : SigAct) : Prop := k.InBounds a ∧ k.LoadsUnblocked a

theorem SignalAfter.clean {a : SigAct} {q : Nat} {s : ProcessSignal} (hi : k.MaskInv)
    (hok : k.LoadsUnblocked a) (h : SignalAfter k a q s) : s.Clean := by
  cases h with
  | kept hQ | forked hQ => exact hi _ _ hQ
  | created => exact newProcess_clean k.maxId
  | killed hQ | ignored hQ => exact ⟨(hi _ _ hQ).mask, (hi _ _ hQ).actions, (hi _ _ hQ).uncaught⟩
  | @installed sig ksa _ Q _ hsig hQ =>
    refine ⟨(hi _ _ hQ).mask, fun i hi64 => ?_, fun i hi64 hboth => ?_⟩
    · simp only [Vector.getElem_set]
      split
      · exact .of_cleared ksa.mask
      · exact (hi _ _ hQ).actions i hi64
    · have hne : sig.toNat ≠ i := by
        unfold sigkill sigstop at hsig hboth
        omega
      simp only [Vector.getElem_set_ne _ _ hne]
      exact (hi _ _ hQ).uncaught i hi64 hboth
  | masked hQ hmask =>
    refine ⟨?_, (hi _ _ hQ).actions, (hi _ _ hQ).uncaught⟩
    rcases hmask with ⟨set, rfl⟩ | ⟨set, rfl⟩
    · exact .of_cleared set
    · exact (hi _ _ hQ).mask.and set
  | returned hQ => exact ⟨hok _ hQ, (hi _ _ hQ).actions, (hi _ _ hQ).uncaught⟩
  | reset hQ => exact resetHandlers_clean (hi _ _ hQ)
  | handled hQ hh => exact ⟨hh.clean (hi _ _ hQ) (hok _ hQ), (hi _ _ hQ).actions, (hi _ _ hQ).uncaught⟩

end Kernel

/-- **`SIGKILL` and `SIGSTOP` are not blocked.** In every run whose steps meet `MaskOk`, the
mask of every process has neither of them. -/
theorem kill_and_stop_unblocked {as : List SigAct} {k : Kernel}
    (hr : Run (Guarded Kernel.MaskOk Kernel.SigStep) .empty as k) :
    ∀ p P, k.processes.get p = some P → Unblocked P.signal.mask := by
  have hi : k.Queued ∧ k.MaskInv := hr.invariant (I := fun k => k.Queued ∧ k.MaskInv)
    ⟨Kernel.empty_queued, fun p P hp => absurd hp (by simp [Kernel.empty, Store.empty])⟩
    fun k _ k' hi h => by
      obtain ⟨hq, hs⟩ := Kernel.sigStep_signalled hi.1 h.1.1 h.2
      exact ⟨hq, fun p P hp => (hs.after hp).clean hi.2 h.1.2⟩
  exact fun p P hp => (hi.2 p P hp).mask

/-! ## Runs that are computed -/

/-- A step that is not stray. -/
def Kernel.sigDone (k : Kernel) (a : SigAct) : Except Halt Kernel :=
  match k.sigStep a with
  | .ok (some k') => .ok k'
  | .ok none => .error .fault
  | .error e => .error e

theorem Kernel.SigStep.of_sigDone {k k' : Kernel} {a : SigAct} (h : k.sigDone a = .ok k') :
    Kernel.SigStep k a k' := by
  unfold Kernel.sigDone at h
  split at h
  · cases h
    exact .done ‹_›
  · cases h
  · cases h

instance (P : Process) (beyond : KSigaction) : Decidable (Kernel.HasHandler P beyond) :=
  inferInstanceAs (Decidable (_ ∧ _ ∧ _))

instance (sp : Nat) : Decidable (Kernel.FrameInUser sp) := inferInstanceAs (Decidable (_ ∧ _))

instance (k : Kernel) : (a : SigAct) → Decidable (k.InBounds a)
  | .sigaction _ sig ksa => inferInstanceAs (Decidable (sig = 64 → ksa = none))
  | .exec _ _ _ => inferInstanceAs (Decidable (_ ∨ _))
  | .dispatch p _ _ => inferInstanceAs (Decidable (∀ P ∈ k.processes.get p, _))
  | .overrun => .isFalse id
  | .create _ _ | .kill _ _ | .sigprocmask _ _ _ | .sigreturn _ _ | .fork _ | .exit _ _ | .other =>
    .isTrue trivial

instance (k : Kernel) : (a : SigAct) → Decidable (k.LoadsUnblocked a)
  | .sigreturn p _ => inferInstanceAs (Decidable (∀ P ∈ k.processes.get p, _))
  | .dispatch p _ _ => inferInstanceAs (Decidable (∀ P ∈ k.processes.get p, _))
  | .create _ _ | .kill _ _ | .sigaction _ _ _ | .sigprocmask _ _ _ | .fork _ | .exec _ _ _
  | .exit _ _ | .other | .overrun => .isTrue trivial

instance (k : Kernel) (a : SigAct) : Decidable (k.MaskOk a) := inferInstanceAs (Decidable (_ ∧ _))

/-- What lies behind the table of actions when it is zeroed. -/
def zeroAction : KSigaction := ⟨0, 0, 0, 0⟩

/-- A process blocks all signals, as far as it can. -/
def blocksAll : List SigAct :=
  [.create 0 0, .dispatch 0 (fun _ => 0) zeroAction, .sigprocmask 0 2 (some (BitVec.allOnes 64))]

theorem kill_and_stop_unblocked_all : ∃ k,
    Run (Guarded Kernel.MaskOk Kernel.SigStep) .empty blocksAll k
      ∧ (k.processes.get 0).map (fun P => sigismember P.signal.mask 1) = some true
      ∧ ∀ p P, k.processes.get p = some P → Unblocked P.signal.mask := by
  obtain ⟨k, hr, hmask⟩ := Run.of_checked_probe Kernel.MaskOk Kernel.sigDone .unknown .empty blocksAll
    (fun k => (k.processes.get 0).map fun P => sigismember P.signal.mask 1) (b := some true)
    (by decide)
  have hr : Run (Guarded Kernel.MaskOk Kernel.SigStep) .empty blocksAll k :=
    hr.mono fun h => ⟨h.1, Kernel.SigStep.of_sigDone h.2⟩
  exact ⟨k, hr, hmask, kill_and_stop_unblocked hr⟩

/-- A process returns from no handler at all, with a stack that has all bits set. -/
def returnsBlocked : List SigAct :=
  [.create 0 0, .dispatch 0 (fun _ => 0) zeroAction, .sigreturn 0 fun _ => 0xff]

theorem sigreturn_blocks : ¬ ∀ (as : List SigAct) (k : Kernel), Run Kernel.SigStep .empty as k →
    ∀ p P, k.processes.get p = some P → Unblocked P.signal.mask := by
  intro h
  obtain ⟨k, hr, hmask⟩ := Run.of_probe Kernel.sigDone .empty returnsBlocked
    (fun k => (k.processes.get 0).map fun P => sigismember P.signal.mask sigkill) (b := some true)
    (by decide)
  obtain ⟨P, hP, hmem⟩ := Option.map_eq_some_iff.mp hmask
  have hfree := h returnsBlocked k (hr.mono Kernel.SigStep.of_sigDone) 0 P hP
  exact absurd (hmem.symm.trans hfree.1) (by simp)

end Cyanurus
