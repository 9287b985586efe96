import Cyanurus.Proc.SignalRun

/-!
# A signal is acted on once for each send

`process_kill` sets a bit in the set of pending signals, and `process_dispatch` clears it when
it acts on the signal. Sends of a signal that is pending already are lost, so a signal is not
acted on more often than it was sent. The argument counts the processes that a signal is
pending for: what has been acted on, and what may still be, is at most what was sent.

A fork copies the set. **`acted_le_sent`**: the count holds as long as no process with a
pending signal forks. `fork_duplicates` is a run in which a signal that was sent once ends
both a process and its child.
-/

namespace Cyanurus

open Lts

/-! ## Counting -/

namespace Kernel

/-- The signal that a step sends. -/
def sends (k : Kernel) : SigAct → Option Nat
  | .kill pid sig => if (k.processKill pid sig).1 = 0 then some sig.toNat else none
  | _ => none

/-- The signal that a step acts on: it runs a handler, ends the process or discards the signal. -/
def acts (k : Kernel) : SigAct → Option Nat
  | .dispatch p _ _ => (k.processes.get p).bind fun P =>
    if P.suspend = none ∧ nextSignal P ≠ 0 then some (nextSignal P) else none
  | _ => none

end Kernel

/-- The kernel with the number of times that each signal was sent and acted on. -/
structure Counted where
  kernel : Kernel
  sent : Nat → Nat
  acted : Nat → Nat

/-- One more for a signal. -/
def bump (count : Nat → Nat) (sig : Option Nat) (n : Nat) : Nat :=
  count n + if sig = some n then 1 else 0

namespace Counted

def empty : Counted := ⟨.empty, fun _ => 0, fun _ => 0⟩

/-- The counts after a step that leads to the kernel `k`. -/
def after (s : Counted) (a : SigAct) (k : Kernel) : Counted :=
  ⟨k, bump s.sent (s.kernel.sends a), bump s.acted (s.kernel.acts a)⟩

def Step (s : Counted) (a : SigAct) (s' : Counted) : Prop :=
  s.kernel.SigStep a s'.kernel ∧ s' = s.after a s'.kernel

end Counted

/-! ## The condition -/

namespace Kernel

/-- A process that forks has no pending signal. -/
def ForksNone (k : Kernel) : SigAct → Prop
  | .fork p => ∀ P ∈ k.processes.get p, P.signal.pending = 0
  | _ => True

/-- What a step asks of the state it starts from. -/
def SendOk (k : Kernel) (a : SigAct) : Prop := k.InBounds a ∧ k.ForksNone a

variable {k k' k'' : Kernel} {p : Nat} {P : Process}

/-! ## Steps that make no signal pending -/

/-- No process has more pending signals than before, and a new one has none. -/
structure NoneAdded (k k' : Kernel) : Prop where
  next : k.processes.next ≤ k'.processes.next
  pending : ∀ {p P'}, k'.processes.get p = some P' → P'.signal.pending = 0 ∨
    ∃ P, k.processes.get p = some P ∧ P'.signal.pending = P.signal.pending
      ∧ (P.state = .dead → P'.state = .dead)

theorem SignalAfter.pending {a : SigAct} {q : Nat} {s : ProcessSignal} (h : SignalAfter k a q s)
    (hok : k.ForksNone a) (hkill : ∀ pid sig, a ≠ .kill pid sig)
    (hdispatch : ∀ p m beyond, a ≠ .dispatch p m beyond) :
    s.pending = 0 ∨ ∃ Q, k.processes.get q = some Q ∧ s.pending = Q.signal.pending := by
  cases h with
  | kept hQ | installed _ _ hQ | masked hQ | returned hQ | reset hQ => exact .inr ⟨_, hQ, rfl⟩
  | created => exact .inl rfl
  | forked hP => exact .inl (hok _ hP)
  | killed => exact absurd rfl (hkill _ _)
  | ignored | handled => exact absurd rfl (hdispatch _ _ _)

theorem Signalled.noneAdded {a : SigAct} (h : Signalled k a k') (hok : k.ForksNone a)
    (hkill : ∀ pid sig, a ≠ .kill pid sig) (hdispatch : ∀ p m beyond, a ≠ .dispatch p m beyond) :
    k.NoneAdded k' := by
  refine ⟨h.next, fun hP' => ?_⟩
  exact ((h.after hP').pending hok hkill hdispatch).imp_right fun ⟨P, hP, hpending⟩ =>
    ⟨P, hP, hpending, h.dead hP hP'⟩

theorem SignalsKept.noneAdded (h : k.SignalsKept k') : k.NoneAdded k' :=
  (Signalled.then (a := .other) (.refl k (by simp)) h).noneAdded trivial (by simp) (by simp)

end Kernel

/-! ## The count of pending signals -/

/-- 1 if the process may yet act on the signal. -/
def Process.carries (sig : Nat) (P : Process) : Nat :=
  if P.state ≠ .dead ∧ sigismember P.signal.pending sig = true then 1 else 0

/-- The processes that may yet act on a signal. -/
def Kernel.pendingCount (k : Kernel) (sig : Nat) : Nat := k.processes.tally (Process.carries sig)

namespace Process

variable {P P' : Process} {n : Nat}

theorem carries_le_one (n : Nat) (P : Process) : P.carries n ≤ 1 := by
  unfold carries
  split <;> omega

theorem carries_of_dead (h : P.state = .dead) : P.carries n = 0 := if_neg fun hc => hc.1 h

theorem carries_of_not_mem (h : sigismember P.signal.pending n = false) : P.carries n = 0 :=
  if_neg fun hc => absurd (h.symm.trans hc.2) (by simp)

theorem carries_of_mem (hs : P.state ≠ .dead) (h : sigismember P.signal.pending n = true) :
    P.carries n = 1 := if_pos ⟨hs, h⟩

theorem carries_mono (hp : sigismember P'.signal.pending n = true → sigismember P.signal.pending n = true)
    (hd : P.state = .dead → P'.state = .dead) : P'.carries n ≤ P.carries n := by
  by_cases hc : P'.state ≠ .dead ∧ sigismember P'.signal.pending n = true
  · rw [carries_of_mem (fun h => hc.1 (hd h)) (hp hc.2)]
    exact carries_le_one n P'
  · unfold carries
    rw [if_neg hc]
    exact Nat.zero_le _

end Process

namespace Kernel

variable {k k' : Kernel} {p n : Nat} {P : Process}

theorem NoneAdded.count (h : k.NoneAdded k') (n : Nat) : k'.pendingCount n ≤ k.pendingCount n := by
  refine Store.tally_le h.next fun hP' => ?_
  rcases h.pending hP' with hzero | ⟨P, hP, hpending, hdead⟩
  · exact .inl (Process.carries_of_not_mem (by rw [hzero]; simp [sigismember]))
  · exact .inr ⟨P, hP, Process.carries_mono (by rw [hpending]; exact id) hdead⟩

/-- The share of one process in the count. -/
theorem pendingCount_split (hp : k.processes.get p = some P) (n : Nat) : ∃ rest,
    k.pendingCount n = P.carries n + rest
      ∧ ∀ f, (k.update p f).pendingCount n = (f P).carries n + rest := by
  obtain ⟨rest, hcount, hupdate, _⟩ := Store.tally_split (Process.carries n) hp
  exact ⟨rest, hcount, hupdate⟩

/-- **A send** makes one signal pending for one process. -/
theorem processKill_count (pid sig : Int) (n : Nat) : (k.processKill pid sig).2.pendingCount n
    ≤ k.pendingCount n + if k.sends (.kill pid sig) = some n then 1 else 0 := by
  rcases processKill_cases k pid sig with heq | ⟨p, P, hP, heq⟩
  · rw [heq]
    exact Nat.le_add_right ..
  have hsends : k.sends (.kill pid sig) = some sig.toNat := by simp [sends, heq]
  rw [hsends, heq]
  obtain ⟨rest, hcount, hupdate⟩ := pendingCount_split hP n
  rw [hupdate, hcount]
  by_cases hn : sig.toNat = n
  · rw [if_pos (by rw [hn])]
    exact Nat.le_trans (Nat.add_le_add_right (Process.carries_le_one n _) rest) (by omega)
  · rw [if_neg fun h => hn (Option.some.inj h)]
    refine Nat.add_le_add_right (Process.carries_mono ?_ ?_) rest
    · intro hmem
      rw [sigismember_sigaddset] at hmem
      simpa [Ne.symm hn] using hmem
    · exact id

/-- The signal is taken from the process that acts on it, which keeps the others or dies. -/
theorem taken_count (hp : k.processes.get p = some P) (halive : P.state ≠ .dead)
    (hnext : nextSignal P ≠ 0) {f : Process → Process} (hf : (f P).state = .dead
      ∨ (f P).signal.pending = sigdelset P.signal.pending (nextSignal P)) (n : Nat) :
    ((k.update p f).pendingCount n + if some (nextSignal P) = some n then 1 else 0)
      ≤ k.pendingCount n := by
  obtain ⟨rest, hcount, hupdate⟩ := pendingCount_split hp n
  rw [hupdate f, hcount]
  by_cases hn : nextSignal P = n
  · have hone : P.carries n = 1 := Process.carries_of_mem halive (hn ▸ nextSignal_pending hnext)
    have hzero : (f P).carries n = 0 := by
      rcases hf with hdead | hpending
      · exact Process.carries_of_dead hdead
      · exact Process.carries_of_not_mem (by simp [hpending, sigismember_sigdelset, hn])
    rw [if_pos (by rw [hn]), hone, hzero]
    omega
  · have hle : (f P).carries n ≤ P.carries n := by
      rcases hf with hdead | hpending
      · rw [Process.carries_of_dead hdead]
        exact Nat.zero_le _
      · refine Process.carries_mono (fun hmem => ?_) fun hdead => absurd hdead halive
        rw [hpending, sigismember_sigdelset, Bool.and_eq_true] at hmem
        exact hmem.1
    rw [if_neg fun h => hn (Option.some.inj h)]
    omega

/-- **A delivery** clears the bit of the signal, or ends the process. -/
theorem dispatched_count (hq : k.Queued) (hready : k.isReady p = true)
    (hp : k.processes.get p = some P) {m m' : Bytes} {beyond : KSigaction} {d : Dispatch}
    (hd : d ≠ .stray) (h : Dispatched k p P m beyond d k' m') (n : Nat) :
    (k'.pendingCount n + if k.acts (.dispatch p m beyond) = some n then 1 else 0)
      ≤ k.pendingCount n := by
  have halive : P.state ≠ .dead := by
    obtain ⟨P₀, hP₀, hstate⟩ := isReady_iff.mp hready
    rw [hp] at hP₀
    cases hP₀
    simp [hstate]
  have hacts : P.suspend = none → nextSignal P ≠ 0 →
      k.acts (.dispatch p m beyond) = some (nextSignal P) := fun hs hnext => by
    simp [acts, hp, hs, hnext]
  have hidle : P.suspend ≠ none ∨ nextSignal P = 0 → k.acts (.dispatch p m beyond) = none := by
    intro hidle
    rcases hidle with hs | hnext
    · simp [acts, hp, hs]
    · simp [acts, hp, hnext]
  cases h with
  | resume hs =>
    have hkept := SignalsKept.update k p (f := fun P => { P with suspend := none }) fun _ => ⟨rfl, rfl⟩
    rw [hidle (.inl (by simp [hs])), if_neg (by simp)]
    exact hkept.noneAdded.count n
  | exited hs hf he =>
    have hnext : nextSignal P ≠ 0 := by
      simp only [fatal, Bool.and_eq_true, bne_iff_ne] at hf
      exact hf.1.1
    obtain ⟨_, hkept⟩ := processExit_signals hq hready he
    rw [hacts hs hnext]
    exact Nat.le_trans (Nat.add_le_add_right (hkept.noneAdded.count n) _)
      (taken_count hp halive hnext (.inl rfl) n)
  | undisturbed hs hnext =>
    rw [hidle (.inr hnext)]
    exact Nat.le_refl _
  | ignored hs hnext =>
    rw [hacts hs hnext]
    exact taken_count hp halive hnext (.inr rfl) n
  | handled hs hh =>
    rw [hacts hs hh.1]
    exact taken_count hp halive hh.1 (.inr rfl) n
  | stray => exact absurd rfl hd

/-- What a step does to the count: a signal that is sent adds at most one, and one that is
acted on takes one away. -/
theorem sigStep_count (hq : k.Queued) {a : SigAct} (hok : k.SendOk a) (h : SigStep k a k') :
    k'.Queued ∧ ∀ n, (k'.pendingCount n + if k.acts a = some n then 1 else 0)
      ≤ k.pendingCount n + if k.sends a = some n then 1 else 0 := by
  obtain ⟨hq', hs⟩ := sigStep_signalled hq hok.1 h
  by_cases hkill : ∃ pid sig, a = .kill pid sig
  · obtain ⟨pid, sig, rfl⟩ := hkill
    rcases sigStep_cases hok.1 h with ⟨_, h⟩ | ⟨ha, _⟩
    · cases h
      exact ⟨hq', fun n => processKill_count pid sig n⟩
    · cases ha
  by_cases hdispatch : ∃ p m beyond, a = .dispatch p m beyond
  · obtain ⟨p, m, beyond, rfl⟩ := hdispatch
    rcases sigStep_cases hok.1 h with ⟨hready, h⟩ | ⟨ha, _⟩
    · obtain ⟨⟨d, k1, m'⟩, hd, h⟩ := bind_eq_ok h
      obtain ⟨P, hP, hd⟩ := processDispatch_ok hd
      refine ⟨hq', fun n => Nat.le_trans ?_ (Nat.le_add_right ..)⟩
      cases d with
      | stray => cases h
      | resume | exited | user =>
        cases h
        exact dispatched_count hq (hready p rfl) hP (by simp) hd n
    · cases ha
  · have hacts : k.acts a = none := by
      cases a with
      | dispatch p m beyond => exact absurd ⟨p, m, beyond, rfl⟩ hdispatch
      | _ => rfl
    have hnone := hs.noneAdded hok.2 (fun pid sig ha => hkill ⟨pid, sig, ha⟩)
      fun p m beyond ha => hdispatch ⟨p, m, beyond, ha⟩
    refine ⟨hq', fun n => ?_⟩
    rw [hacts]
    exact Nat.le_trans (hnone.count n) (Nat.le_add_right ..)

end Kernel

namespace Counted

/-- What was acted on, and what may yet be, was sent. -/
structure Inv (s : Counted) : Prop where
  queued : s.kernel.Queued
  count : ∀ n, s.acted n + s.kernel.pendingCount n ≤ s.sent n

theorem Inv.step {s s' : Counted} {a : SigAct} (hi : s.Inv) (hok : s.kernel.SendOk a)
    (h : s.Step a s') : s'.Inv := by
  obtain ⟨h, hafter⟩ := h
  obtain ⟨hq, hcount⟩ := Kernel.sigStep_count hi.queued hok h
  rw [hafter]
  refine ⟨hq, fun n => ?_⟩
  have hbefore := hi.count n
  have hstep := hcount n
  simp only [after, bump]
  omega

end Counted

/-- **A signal is acted on at most once per send.** In every run whose steps meet `SendOk`, and
for every signal. -/
theorem acted_le_sent {as : List SigAct} {s : Counted}
    (hr : Run (Guarded (fun s : Counted => s.kernel.SendOk) Counted.Step) .empty as s) :
    ∀ sig, s.acted sig ≤ s.sent sig := by
  have hempty : Counted.empty.Inv := by
    refine ⟨Kernel.empty_queued, fun n => ?_⟩
    exact Nat.le_of_eq (congrArg (0 + ·) Store.tally_empty)
  have hi : s.Inv := hr.invariant hempty fun _ _ _ hi h => hi.step h.1 h.2
  exact fun sig => Nat.le_trans (Nat.le_add_right ..) (hi.count sig)

/-! ## Runs that are computed -/

def Counted.done (s : Counted) (a : SigAct) : Except Halt Counted :=
  (s.kernel.sigDone a).map (s.after a)

theorem Counted.Step.of_done {s s' : Counted} {a : SigAct} (h : s.done a = .ok s') : s.Step a s' := by
  obtain ⟨k, hk, rfl⟩ := map_eq_ok h
  exact ⟨.of_sigDone hk, rfl⟩

instance (k : Kernel) : (a : SigAct) → Decidable (k.ForksNone a)
  | .fork p => inferInstanceAs (Decidable (∀ P ∈ k.processes.get p, _))
  | .create _ _ | .kill _ _ | .sigaction _ _ _ | .sigprocmask _ _ _ | .sigreturn _ _ | .exec _ _ _
  | .exit _ _ | .dispatch _ _ _ | .other | .overrun => .isTrue trivial

instance (k : Kernel) (a : SigAct) : Decidable (k.SendOk a) := inferInstanceAs (Decidable (_ ∧ _))

def sigusr1 : Nat := 10

/-- A process sends itself a signal twice before it is dispatched. -/
def killedTwice : List SigAct :=
  [.create 0 0, .kill 1 sigusr1, .kill 1 sigusr1, .dispatch 0 (fun _ => 0) zeroAction]

theorem acted_le_sent_twice : ∃ s : Counted,
    Run (Guarded (fun s : Counted => s.kernel.SendOk) Counted.Step) .empty killedTwice s
      ∧ s.acted sigusr1 = 1 ∧ ∀ sig, s.acted sig ≤ s.sent sig := by
  obtain ⟨s, hr, hone⟩ := Run.of_checked_probe (fun s : Counted => s.kernel.SendOk) Counted.done
    .unknown .empty killedTwice (fun s => s.acted sigusr1) (b := 1) (by decide)
  have hr : Run (Guarded (fun s : Counted => s.kernel.SendOk) Counted.Step) .empty killedTwice s :=
    hr.mono fun h => ⟨h.1, .of_done h.2⟩
  exact ⟨s, hr, hone, acted_le_sent hr⟩

/-- A process blocks a signal, sends it to itself and forks; then both unblock it. -/
def forksPending : List SigAct :=
  let set : Option Sigset := some (sigaddset 0 sigusr1)
  [.create 0 0, .sigprocmask 0 0 set, .kill 1 sigusr1, .fork 0,
    .sigprocmask 0 1 set, .dispatch 0 (fun _ => 0) zeroAction,
    .dispatch 1 (fun _ => 0) zeroAction, .sigprocmask 1 1 set, .dispatch 1 (fun _ => 0) zeroAction]

theorem fork_duplicates : ¬ ∀ (as : List SigAct) (s : Counted), Run Counted.Step .empty as s →
    ∀ sig, s.acted sig ≤ s.sent sig := by
  intro h
  obtain ⟨s, hr, htwo⟩ := Run.of_probe Counted.done .empty forksPending
    (fun s => (s.acted sigusr1, s.sent sigusr1)) (b := (2, 1)) (by decide)
  have hle := h forksPending s (hr.mono .of_done) sigusr1
  rw [(Prod.mk.inj htwo).1, (Prod.mk.inj htwo).2] at hle
  exact absurd hle (by decide)

end Cyanurus
