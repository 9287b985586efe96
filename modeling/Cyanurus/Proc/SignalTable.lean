import Cyanurus.Proc.SignalRun

/-!
# The table of actions

`signal.actions` has `NSIG - 1` entries and is indexed with the signal itself, so entry 0 is
never used and signal 64 has none. `process_sigaction` and `process_kill` accept 64 all the
same: the action is stored behind the table, and a delivery looks for it there.

**`actions_in_table`** is derived from what a step does (`Signalled`): in runs without signal 64 every access to the table
is inside of it, and a handler that is invoked after an exec was installed after it. The run
behind the second part is watched by `Lined`, which keeps the processes that descend from the
one that made the exec, and what they have installed since.
-/

namespace Cyanurus

open Lts

namespace Kernel

/-- The entries of `signal.actions` that a step uses; `old` says whether `process_sigaction`
is asked for the old action. -/
def tableAccesses (k : Kernel) (old : Bool) : SigAct → List Nat
  | .sigaction _ sig ksa =>
    if sig < 1 ∨ sig ≥ nsig then []
    else if sig = sigkill ∨ sig = sigstop then []
    else if old = true ∨ ksa ≠ none then [sig.toNat] else []
  | .dispatch p _ _ => (k.processes.get p).elim [] fun P =>
    if P.suspend = none ∧ nextSignal P ≠ 0 then [nextSignal P] else []
  | .exec _ lens image =>
    if argSize lens > argMax ∨ image = none then [] else List.range (nsig - 1)
  | _ => []

/-! ## Signal 64 is never pending -/

/-- The signal has an entry in the table. -/
def HasEntry : SigAct → Prop
  | .kill _ sig | .sigaction _ sig _ => sig ≠ 64
  | _ => True

/-- What a step asks of the state it starts from. -/
def TableOk (k : Kernel) (a : SigAct) : Prop := k.InBounds a ∧ HasEntry a

/-- Signal 64 is pending for no process. -/
def NoLast (k : Kernel) : Prop :=
  ∀ p P, k.processes.get p = some P → sigismember P.signal.pending 64 = false

variable {k k' : Kernel} {p q : Nat} {P Q' : Process} {a : SigAct}

theorem SignalAfter.noLast {s : ProcessSignal} (hi : k.NoLast) (hok : HasEntry a)
    (h : SignalAfter k a q s) : sigismember s.pending 64 = false := by
  cases h with
  | kept hQ | masked hQ | returned hQ | forked hQ | reset hQ | installed _ _ hQ => exact hi _ _ hQ
  | created => simp [newProcess, sigismember]
  | @killed pid sig q Q hQ =>
    have hne : sig ≠ 64 := hok
    have hsig : 64 ≠ sig.toNat := by omega
    simp [sigismember_sigaddset, hi _ _ hQ, hsig]
  | ignored hQ | handled hQ => simp [sigismember_sigdelset, hi _ _ hQ]

theorem Signalled.noLast (hi : k.NoLast) (hok : HasEntry a) (h : Signalled k a k') : k'.NoLast :=
  fun _ _ hq => (h.after hq).noLast hi hok

/-- So the signal that is acted on has an entry. -/
theorem NoLast.nextSignal_lt (hi : k.NoLast) (hp : k.processes.get p = some P)
    (h : nextSignal P ≠ 0) : nextSignal P < 64 := by
  have hpending := nextSignal_pending h
  have hrange : nextSignal P < nsig := by
    simp only [sigismember, Bool.and_eq_true, decide_eq_true_eq] at hpending
    exact hpending.1.2
  have hne : nextSignal P ≠ 64 := by
    intro h64
    rw [h64, hi p P hp] at hpending
    exact absurd hpending (by simp)
  unfold nsig at hrange
  omega

theorem NoLast.tableAccesses_lt (hi : k.NoLast) {old : Bool} (hok : HasEntry a) :
    ∀ i ∈ k.tableAccesses old a, i < nsig - 1 := by
  intro i hmem
  cases a with
  | sigaction p sig ksa =>
    have hsig : sig ≠ 64 := hok
    simp only [tableAccesses] at hmem
    split at hmem
    · exact absurd hmem (by simp)
    split at hmem
    · exact absurd hmem (by simp)
    split at hmem
    · rw [List.mem_singleton.mp hmem]
      unfold nsig at *
      omega
    · exact absurd hmem (by simp)
  | dispatch p m beyond =>
    simp only [tableAccesses] at hmem
    cases hp : k.processes.get p with
    | none =>
      rw [hp] at hmem
      exact absurd hmem (by simp)
    | some P =>
      rw [hp, Option.elim_some] at hmem
      split at hmem
      · rename_i hnext
        rw [List.mem_singleton.mp hmem]
        exact hi.nextSignal_lt hp hnext.2
      · exact absurd hmem (by simp)
  | exec p lens image =>
    simp only [tableAccesses] at hmem
    split at hmem
    · exact absurd hmem (by simp)
    · exact List.mem_range.mp hmem
  | create | kill | sigprocmask | sigreturn | fork | exit | other | overrun =>
    exact absurd hmem (by simp [tableAccesses])

end Kernel

/-! ## Handlers that were installed since an exec -/

/-- The kernel with the processes that descend from one that made an exec, and the signals and
handlers that these have installed since. -/
structure Lined where
  kernel : Kernel
  line : List Nat
  installed : List (Nat × Nat)

namespace Lined

/-- The record after a step that leads to the kernel `k`. -/
def after (s : Lined) (a : SigAct) (k : Kernel) : Lined :=
  match a with
  | .fork p => { s with kernel := k, line := if p ∈ s.line then s.kernel.processes.next :: s.line else s.line }
  | .sigaction p sig (some ksa) =>
    { s with
      kernel := k
      installed := if p ∈ s.line then (sig.toNat, ksa.handler) :: s.installed else s.installed }
  | _ => { s with kernel := k }

def Step (s : Lined) (a : SigAct) (s' : Lined) : Prop :=
  s.kernel.SigStep a s'.kernel ∧ s' = s.after a s'.kernel

/-- A handler in the table of a descendant was installed since. -/
def Entry (s : Lined) (signal : ProcessSignal) : Prop :=
  ∀ (i : Nat) (hi : i < 64), signal.actions[i].handler = sigDfl
    ∨ signal.actions[i].handler = sigIgn ∨ (i, signal.actions[i].handler) ∈ s.installed

structure Inv (s : Lined) : Prop where
  queued : s.kernel.Queued
  last : s.kernel.NoLast
  named : ∀ q ∈ s.line, q < s.kernel.processes.next
  entries : ∀ q ∈ s.line, ∀ Q, s.kernel.processes.get q = some Q → s.Entry Q.signal

variable {s s' : Lined} {a : SigAct} {signal : ProcessSignal} {q : Nat} {k : Kernel}

/-- What was installed stays on record. -/
theorem after_installed (s : Lined) (a : SigAct) (k : Kernel) {x : Nat × Nat} (hx : x ∈ s.installed) :
    x ∈ (s.after a k).installed := by
  unfold after
  split
  · exact hx
  · split
    · exact List.mem_cons_of_mem _ hx
    · exact hx
  · exact hx

theorem Entry.mono (h : s.Entry signal)
    (hmono : ∀ {x}, x ∈ s.installed → x ∈ s'.installed) : s'.Entry signal :=
  fun i hi => (h i hi).imp_right (Or.imp_right hmono)

/-- The line grows by the child of a member only. -/
theorem mem_after_line (h : q ∈ (s.after a k).line) :
    q ∈ s.line ∨ ∃ p ∈ s.line, a = .fork p ∧ q = s.kernel.processes.next := by
  unfold after at h
  split at h
  · rename_i p
    split at h
    · rename_i hp
      rcases List.mem_cons.mp h with rfl | h
      · exact .inr ⟨p, hp, rfl, rfl⟩
      · exact .inl h
    · exact .inl h
  · exact .inl h
  · exact .inl h

theorem resetHandlers_entry (actions : Vector KSigaction 64) (i : Nat) (hi : i < 64) :
    (Kernel.resetHandlers actions)[i].handler = sigDfl
      ∨ (Kernel.resetHandlers actions)[i].handler = sigIgn := by
  simp only [Kernel.resetHandlers, Vector.getElem_map]
  split
  · exact .inl rfl
  · rename_i h
    by_cases hd : actions[i].handler = sigDfl
    · exact .inl hd
    · exact .inr (Classical.byContradiction fun hign => h ⟨hd, hign⟩)

/-- The table of a process that is in the line before and after a step. -/
theorem Inv.entry_after (hi : s.Inv)
    (hq : q ∈ (s.after a k).line) (h : s.kernel.SignalAfter a q signal) :
    (s.after a k).Entry signal := by
  have hmono : ∀ {x}, x ∈ s.installed → x ∈ (s.after a k).installed := s.after_installed a k
  -- a name that is new is in the line only as the child of a member
  have hold : ∀ {Q : Process}, s.kernel.processes.get q = some Q → q ∈ s.line := by
    intro Q hQ
    rcases mem_after_line hq with hline | ⟨_, _, _, hnew⟩
    · exact hline
    · exact absurd (Store.lt_next hQ) (by omega)
  have hentry : ∀ {Q : Process}, s.kernel.processes.get q = some Q → s.Entry Q.signal :=
    fun hQ => hi.entries q (hold hQ) _ hQ
  cases h with
  | kept hQ => exact (hentry hQ).mono hmono
  | masked hQ | returned hQ | killed hQ | ignored hQ | handled hQ =>
    exact fun i hi => (hentry hQ).mono hmono i hi
  | created =>
    intro i hi64
    left
    simp [Kernel.newProcess, sigDfl]
  | @forked p P hP =>
    rcases mem_after_line hq with hline | ⟨p', hp', heq, _⟩
    · exact absurd (hi.named _ hline) (by omega)
    · cases heq
      exact (hi.entries p hp' P hP).mono hmono
  | reset hQ => exact fun i hi64 => (resetHandlers_entry _ i hi64).imp_right .inl
  | installed h64 _ hQ =>
    intro i hi64
    simp only [Vector.getElem_set]
    split
    · rename_i hsig
      subst hsig
      right
      right
      unfold after
      simp only [if_pos (hold hQ)]
      exact List.mem_cons_self
    · exact (hentry hQ).mono hmono i hi64

theorem Inv.step (hi : s.Inv) (hok : s.kernel.TableOk a) (h : s.Step a s') : s'.Inv := by
  obtain ⟨h, hafter⟩ := h
  obtain ⟨hqueued, hs⟩ := Kernel.sigStep_signalled hi.queued hok.1 h
  refine ⟨hqueued, hs.noLast hi.last hok.2, fun q hq => ?_, fun q hq Q hQ => ?_⟩
  · rw [hafter] at hq
    rcases mem_after_line hq with hline | ⟨p, _, ha, rfl⟩
    · exact Nat.lt_of_lt_of_le (hi.named q hline) hs.next
    · exact hs.fork p ha
  · rw [hafter] at hq ⊢
    exact hi.entry_after hq (hs.after hQ)

/-- After an exec the process has no handler. -/
theorem Inv.of_exec {k' : Kernel} {p : Nat} {lens : List Nat} {image : Option (Nat × Nat)}
    (hqueued : k.Queued) (hi : k.NoLast) (hready : k.isReady p = true)
    (h : k.processExec p lens image = .ok (some (0, k'))) : Inv ⟨k', [p], []⟩ := by
  obtain ⟨hq, hs⟩ := Kernel.processExec_signalled hqueued h
  have hentry : Kernel.HasEntry (.exec p lens image) := trivial
  refine ⟨hq, hs.noLast hi hentry, fun q hq => ?_, fun q hq Q' hQ' i hi64 => ?_⟩
  · obtain ⟨P, hP, _⟩ := Kernel.isReady_iff.mp hready
    rw [List.mem_singleton.mp hq]
    exact Nat.lt_of_lt_of_le (Store.lt_next hP) hs.next
  · rw [List.mem_singleton.mp hq] at hQ'
    rcases Kernel.processExec_cases h with ⟨hr, _⟩ | ⟨sp, pc, k1, hclose, rfl⟩
    · exact absurd hr (by decide)
    obtain ⟨Q₁, hQ₁, rfl⟩ := Store.get_modify hQ'
    obtain ⟨_, hclosed⟩ := Kernel.closeMarked_signals (hqueued.update p (by simp)) hclose
    obtain ⟨Q₂, hQ₂, hsignal, _⟩ := hclosed.back hQ₁
    obtain ⟨Q, _, rfl⟩ := Store.get_modify hQ₂
    simp only [hsignal]
    exact (resetHandlers_entry Q.signal.actions i hi64).imp_right .inl

end Lined

/-- Every access to the table is to one of its `NSIG - 1` entries, and a handler that a
process invokes after an exec, or one that descends from it does, was installed after it. -/
def Kernel.TableSafe (k : Kernel) (ok : Kernel → SigAct → Prop) : Prop :=
  (∀ a k' old, ok k a → SigStep k a k' → ∀ i ∈ k.tableAccesses old a, i < nsig - 1)
  ∧ ∀ p lens image k', k.isReady p = true → ok k (.exec p lens image) →
    k.processExec p lens image = .ok (some (0, k')) →
    ∀ as s, Run (Guarded (fun s : Lined => ok s.kernel) Lined.Step) ⟨k', [p], []⟩ as s →
    ∀ q ∈ s.line, ∀ Q beyond, s.kernel.processes.get q = some Q → Kernel.HasHandler Q beyond →
      (Kernel.nextSignal Q, (Kernel.action Q beyond (Kernel.nextSignal Q)).handler) ∈ s.installed

/-- **Actions stay in the table and die with the program**, in every run whose steps keep
their stores in bounds and in which signal 64 is neither caught nor sent. -/
theorem actions_in_table {as : List SigAct} {k : Kernel}
    (hr : Run (Guarded Kernel.TableOk Kernel.SigStep) .empty as k) : k.TableSafe Kernel.TableOk := by
  obtain ⟨hqueued, hi⟩ : k.Queued ∧ k.NoLast := hr.invariant (I := fun k => k.Queued ∧ k.NoLast)
    ⟨Kernel.empty_queued, fun p P hp => absurd hp (by simp [Kernel.empty, Store.empty])⟩
    fun _ _ _ hi h => (Kernel.sigStep_signalled hi.1 h.1.1 h.2).imp id fun hs => hs.noLast hi.2 h.1.2
  refine ⟨fun a k' old hok _ => hi.tableAccesses_lt hok.2, ?_⟩
  intro p lens image k' hready _ hexec bs s hbs q hq Q beyond hQ hh
  have hs : s.Inv := hbs.invariant (I := Lined.Inv) (.of_exec hqueued hi hready hexec)
    fun _ _ _ hi h => hi.step h.1 h.2
  have hlt := hs.last.nextSignal_lt hQ hh.1
  have haction : Kernel.action Q beyond (Kernel.nextSignal Q)
      = Q.signal.actions[Kernel.nextSignal Q] := by
    simp [Kernel.action, hlt]
  rw [haction]
  rcases hs.entries q hq Q hQ _ hlt with h | h | h
  · exact absurd (haction ▸ h) hh.2.1
  · exact absurd (haction ▸ h) hh.2.2
  · exact h

instance : (a : SigAct) → Decidable (Kernel.HasEntry a)
  | .kill _ sig | .sigaction _ sig _ => inferInstanceAs (Decidable (sig ≠ 64))
  | .create _ _ | .sigprocmask _ _ _ | .sigreturn _ _ | .fork _ | .exec _ _ _ | .exit _ _
  | .dispatch _ _ _ | .other | .overrun => .isTrue trivial

instance (k : Kernel) (a : SigAct) : Decidable (k.TableOk a) := inferInstanceAs (Decidable (_ ∧ _))

/-- The process catches signal 10 and then runs another program. -/
def installs : List SigAct := [.create 0 0, .sigaction 0 10 (some ⟨0x20000, 0, 0, 0⟩)]

theorem actions_in_table_exec : ∃ k k', Run (Guarded Kernel.TableOk Kernel.SigStep) .empty installs k
    ∧ (k.processes.get 0).map (fun P => (Kernel.action P zeroAction 10).handler) = some 0x20000
    ∧ k.isReady 0 = true ∧ k.processExec 0 [5] (some (0x5fffff00, 0x10000)) = .ok (some (0, k'))
    ∧ k.TableSafe Kernel.TableOk := by
  let probe : Kernel → Bool := fun k =>
    decide ((k.processes.get 0).map (fun P => (Kernel.action P zeroAction 10).handler) = some 0x20000)
      && k.isReady 0 && decide ((k.processExec 0 [5] (some (0x5fffff00, 0x10000))).toOption.map
        (Option.map Prod.fst) = some (some 0))
  obtain ⟨k, hr, hk⟩ := Run.of_checked_probe Kernel.TableOk Kernel.sigDone .unknown .empty installs
    probe (b := true) (by decide)
  have hr : Run (Guarded Kernel.TableOk Kernel.SigStep) .empty installs k :=
    hr.mono fun h => ⟨h.1, Kernel.SigStep.of_sigDone h.2⟩
  simp only [probe, Bool.and_eq_true, decide_eq_true_eq] at hk
  obtain ⟨⟨hhandler, hready⟩, hexec⟩ := hk
  cases he : k.processExec 0 [5] (some (0x5fffff00, 0x10000)) with
  | error e =>
    rw [he] at hexec
    exact absurd hexec (by simp [Except.toOption])
  | ok done =>
    rw [he] at hexec
    obtain ⟨⟨r, k'⟩, rfl, rfl⟩ := Option.map_eq_some_iff.mp (Option.some.inj hexec)
    exact ⟨k, k', hr, hhandler, hready, he, actions_in_table hr⟩

/-- An action for signal 64 is stored behind the table. -/
theorem action_behind_table : ¬ ∀ (as : List SigAct) (k : Kernel), Run Kernel.SigStep .empty as k →
    k.TableSafe fun _ _ => True := by
  intro h
  obtain ⟨k, hr, hstray⟩ := Run.of_probe Kernel.sigDone .empty [.create 0 0]
    (fun k => (k.sigStep (.sigaction 0 64 (some ⟨0x20000, 0, 0, 0⟩))).toOption.map Option.isNone)
    (b := some true) (by decide)
  have hstep : k.sigStep (.sigaction 0 64 (some ⟨0x20000, 0, 0, 0⟩)) = .ok none := by
    cases he : k.sigStep (.sigaction 0 64 (some ⟨0x20000, 0, 0, 0⟩)) with
    | error e =>
      rw [he] at hstray
      exact absurd hstray (by simp [Except.toOption])
    | ok done =>
      rw [he] at hstray
      rw [Option.isNone_iff_eq_none.mp (Option.some.inj hstray)]
  have hin := (h [.create 0 0] k (hr.mono Kernel.SigStep.of_sigDone)).1 _ k false trivial (.stray hstep)
    64 (by simp [Kernel.tableAccesses, nsig, sigkill, sigstop])
  exact absurd hin (by decide)

end Cyanurus
