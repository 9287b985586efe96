import Cyanurus.Proc.Descriptors
import Cyanurus.Proc.WaitRun

/-!
# The scheduler

Four records say what becomes of a process: its state, the run queue, the wait queues and
the context that it was suspended with. **`scheduler_state_machine`**: at every dispatch they
agree.

From one dispatch to the next only the process that was dispatched acts; it may go to sleep
or die, and all that can happen to another process is that it is woken. `Phase` says so of
the kernel between the dispatch and the next `process_switch`, and every operation keeps it.
-/

namespace Cyanurus

open Lts

/-! ## The records -/

namespace Kernel

/-- Exactly one entry of all wait queues names the process. -/
def OneEntry (k : Kernel) (p : Nat) : Prop :=
  ∃ q, (k.waitqs q).count p = 1 ∧ ∀ q', q' ≠ q → p ∉ k.waitqs q'

/-- What holds at all times. -/
structure Sound (k : Kernel) : Prop where
  all : k.allProcesses.Nodup
  fresh : ∀ {p}, p ∈ k.allProcesses → p < k.processes.next
  run : k.runQueue.Nodup
  runnable : ∀ {r}, r ∈ k.runQueue →
    r ∈ k.allProcesses ∧ k.isReady r = true ∧ k.currentProcess ≠ some r
  queued : k.Queued
  entry : ∀ {p P}, k.processes.get p = some P → P.state = .blocked → ∃ q, p ∈ k.waitqs q

/-- What holds when a process is dispatched, or no process can run. -/
structure Dispatchable (k : Kernel) : Prop extends Sound k where
  dispatched : ∀ {p}, k.currentProcess = some p → k.isReady p = true

end Kernel

/-- The process is suspended as before, and at most it was woken. -/
def Process.Quiet (P P' : Process) : Prop :=
  P'.suspend = P.suspend ∧ (P'.state = P.state ∨ (P.state = .blocked ∧ P'.state = .ready))

theorem Process.Quiet.trans {P P' P'' : Process} (h : P.Quiet P') (h' : P'.Quiet P'') : P.Quiet P'' := by
  refine ⟨h'.1.trans h.1, ?_⟩
  rcases h.2 with hs | ⟨hb, hs⟩
  · rw [← hs]
    exact h'.2
  · rcases h'.2 with hs' | ⟨hb', _⟩
    · exact .inr ⟨hb, hs'.trans hs⟩
    · exact absurd (hb'.symm.trans hs) (by simp)

namespace Kernel

variable {k₀ k k' : Kernel} {p r c : Nat} {P R : Process} {f : Process → Process}

/-- The kernel at work for the process that was dispatched in `k₀`. The others are quiet; new
ones are ready. -/
structure Phase (k₀ k : Kernel) : Prop where
  sound : k.Sound
  current : k.currentProcess = k₀.currentProcess
  next : k₀.processes.next ≤ k.processes.next
  others : ∀ {r R'}, k₀.currentProcess ≠ some r → k.processes.get r = some R' →
    (∃ R, k₀.processes.get r = some R ∧ R.Quiet R')
      ∨ (k₀.processes.next ≤ r ∧ R'.state = .ready ∧ R'.suspend = none)

/-- The process that was dispatched is not suspended, and awake. -/
structure Going (k₀ : Kernel) (p : Nat) (k : Kernel) : Prop extends Phase k₀ k where
  mine : k₀.currentProcess = some p
  awake : ∃ P, k.processes.get p = some P ∧ P.suspend = none ∧ P.state ≠ .blocked

/-- The process that was dispatched is suspended if it has gone to sleep. -/
structure Ended (k₀ k : Kernel) : Prop extends Phase k₀ k where
  own : ∀ {p P}, k₀.currentProcess = some p → k.processes.get p = some P →
    (P.suspend.isSome ↔ P.state = .blocked)

theorem Going.ended (h : Going k₀ p k) : Ended k₀ k := by
  refine ⟨h.toPhase, fun {p' P} hp hP => ?_⟩
  rw [h.mine] at hp
  cases hp
  obtain ⟨P₀, hP₀, hsuspend, hstate⟩ := h.awake
  rw [hP₀] at hP
  cases hP
  simp [hsuspend, hstate]

theorem Sound.phase (h : k.Sound) : Phase k k :=
  ⟨h, rfl, Nat.le_refl _, fun _ hR => .inl ⟨_, hR, rfl, .inl rfl⟩⟩

/-- Processes that are quiet in one more operation. -/
theorem Phase.step (h : Phase k₀ k) (hs : k'.Sound) (hc : k'.currentProcess = k.currentProcess)
    (hn : k'.processes.next = k.processes.next)
    (hq : ∀ {r R'}, k.currentProcess ≠ some r → k'.processes.get r = some R' →
      ∃ R, k.processes.get r = some R ∧ R.Quiet R') : Phase k₀ k' := by
  refine ⟨hs, hc.trans h.current, hn ▸ h.next, fun {r R'} hr hR' => ?_⟩
  obtain ⟨R, hR, hquiet⟩ := hq (h.current ▸ hr) hR'
  rcases h.others hr hR with ⟨R₀, hR₀, hquiet₀⟩ | ⟨hnew, hready, hnone⟩
  · exact .inl ⟨R₀, hR₀, hquiet₀.trans hquiet⟩
  · refine .inr ⟨hnew, ?_, hquiet.1.trans hnone⟩
    rcases hquiet.2 with hs | ⟨hb, _⟩
    · exact hs.trans hready
    · exact absurd (hready.symm.trans hb) (by simp)

/-! ## Changes of processes -/

/-- Fields other than the state and the context that a process is suspended with. -/
theorem Sound.update (h : k.Sound) (r : Nat)
    (hf : ∀ P, (f P).state = P.state) : (k.update r f).Sound := by
  refine ⟨h.all, h.fresh, h.run, fun {r'} hr' => ?_, h.queued.update r hf, fun {p P} hP hb => ?_⟩
  · obtain ⟨hall, hready, hne⟩ := h.runnable hr'
    obtain ⟨R, hR, hs⟩ := isReady_iff.mp hready
    refine ⟨hall, isReady_iff.mpr ?_, hne⟩
    by_cases hrr : r' = r
    · exact ⟨f R, Store.modify_self_of hR hrr, (hf R).trans hs⟩
    · exact ⟨R, (Store.modify_ne hrr).trans hR, hs⟩
  · obtain ⟨P₀, hP₀, rfl⟩ := Store.get_modify hP
    refine h.entry hP₀ ?_
    split at hb
    · exact (hf P₀).symm.trans hb
    · exact hb

theorem Phase.update (h : Phase k₀ k) (r : Nat)
    (hf : ∀ P, (f P).state = P.state ∧ (f P).suspend = P.suspend) : Phase k₀ (k.update r f) := by
  refine h.step (h.sound.update r fun P => (hf P).1) rfl rfl fun {r' R'} _ hR' => ?_
  obtain ⟨R, hR, rfl⟩ := Store.get_modify hR'
  refine ⟨R, hR, ?_⟩
  split
  · exact ⟨(hf R).2, .inl (hf R).1⟩
  · exact ⟨rfl, .inl rfl⟩

/-- The process that was dispatched is in no queue, so its state is its own. -/
theorem Phase.own (h : Phase k₀ k) (hp : k₀.currentProcess = some p)
    (hP : k.processes.get p = some P) (hs : P.state ≠ .blocked)
    (hf : (f P).state ≠ .blocked) : Phase k₀ (k.update p f) := by
  have hcur : k.currentProcess = some p := h.current.trans hp
  refine h.step ⟨h.sound.all, h.sound.fresh, h.sound.run, fun {r} hr => ?_,
    h.sound.queued.awake hP hs f, fun {r R} hR hb => ?_⟩ rfl rfl fun {r R'} hr hR' => ?_
  · obtain ⟨hall, hready, hne⟩ := h.sound.runnable hr
    obtain ⟨R, hR, hs⟩ := isReady_iff.mp hready
    have hrp : r ≠ p := fun hrp => hne (by rw [hcur, hrp])
    exact ⟨hall, isReady_iff.mpr ⟨R, (Store.modify_ne hrp).trans hR, hs⟩, hne⟩
  · obtain ⟨R₀, hR₀, rfl⟩ := Store.get_modify hR
    by_cases hrp : r = p
    · rw [if_pos hrp] at hb
      rw [hrp, hP] at hR₀
      cases hR₀
      exact absurd hb hf
    · rw [if_neg hrp] at hb
      exact h.sound.entry hR₀ hb
  · have hrp : r ≠ p := fun hrp => hr (by rw [hcur, hrp])
    exact ⟨R', (Store.modify_ne hrp).symm.trans hR', rfl, .inl rfl⟩

theorem Going.own (h : Going k₀ p k)
    (hf : ∀ P, P.suspend = none → P.state ≠ .blocked → (f P).suspend = none ∧ (f P).state ≠ .blocked) :
    Going k₀ p (k.update p f) := by
  obtain ⟨P, hP, hsuspend, hstate⟩ := h.awake
  obtain ⟨hsuspend', hstate'⟩ := hf P hsuspend hstate
  exact ⟨h.toPhase.own h.mine hP hstate hstate', h.mine, f P, Store.modify_self_of hP rfl, hsuspend',
    hstate'⟩

/-- Fields of any process that have nothing to do with scheduling. -/
theorem Going.update (h : Going k₀ p k) (r : Nat)
    (hf : ∀ P, (f P).state = P.state ∧ (f P).suspend = P.suspend) : Going k₀ p (k.update r f) := by
  obtain ⟨P, hP, hsuspend, hstate⟩ := h.awake
  refine ⟨h.toPhase.update r hf, h.mine, ?_⟩
  by_cases hpr : p = r
  · exact ⟨f P, Store.modify_self_of hP hpr, (hf P).2.trans hsuspend, by rw [(hf P).1]; exact hstate⟩
  · exact ⟨P, (Store.modify_ne hpr).trans hP, hsuspend, hstate⟩

theorem Going.setResult (h : Going k₀ p k) (r : Nat) (v : Int) : Going k₀ p (k.setResult r v) :=
  h.update r fun _ => ⟨rfl, rfl⟩

theorem Going.files (h : Going k₀ p k) (files : Store File) (pipes : Store Pipe) :
    Going k₀ p { k with files := files, pipes := pipes } :=
  ⟨⟨⟨h.sound.all, h.sound.fresh, h.sound.run, h.sound.runnable,
    ⟨h.sound.queued.blocked, h.sound.queued.unique, h.sound.queued.nodup⟩, h.sound.entry⟩,
    h.current, h.next, h.others⟩, h.mine, h.awake⟩

/-! ## Sleeping and waking -/

/-- A process that is left in the queues sleeps on. -/
theorem Sound.wake (h : k.Sound) (q : Waitq) : (k.processWake q).2.Sound := by
  obtain ⟨hqueued, hrel⟩ := h.queued.wake q
  have hsame : (k.processWake q).2.allProcesses = k.allProcesses
      ∧ (k.processWake q).2.runQueue = k.runQueue
      ∧ (k.processWake q).2.currentProcess = k.currentProcess
      ∧ (k.processWake q).2.processes.next = k.processes.next := by
    unfold processWake
    cases k.waitqs q with
    | nil => exact ⟨rfl, rfl, rfl, rfl⟩
    | cons r rest => exact ⟨rfl, rfl, rfl, rfl⟩
  obtain ⟨hall, hrun, hcur, hnext⟩ := hsame
  refine ⟨hall ▸ h.all, fun hp => by rw [hnext]; exact h.fresh (hall ▸ hp), hrun ▸ h.run,
    fun {r} hr => ?_, hqueued, fun {p P} hP hb => ?_⟩
  · rw [hrun] at hr
    obtain ⟨hmem, hready, hne⟩ := h.runnable hr
    obtain ⟨R, hR, hs⟩ := isReady_iff.mp hready
    exact ⟨hall ▸ hmem, isReady_iff.mpr ⟨R, rel_get hrel hR (by rw [hs]; simp), hs⟩, hcur ▸ hne⟩
  · obtain ⟨P₀, hP₀, hroused⟩ := hrel.back hP
    rcases hroused with rfl | ⟨_, rfl⟩
    · obtain ⟨q', hmem⟩ := h.entry hP₀ hb
      refine ⟨q', ?_⟩
      unfold processWake at hP ⊢
      cases hq : k.waitqs q with
      | nil => exact hmem
      | cons s rest =>
        rw [hq] at hP
        show p ∈ Function.update k.waitqs q rest q'
        by_cases hqq : q' = q
        · subst hqq
          rw [Function.update_self]
          rw [hq] at hmem
          refine (List.mem_cons.mp hmem).resolve_left fun hps => ?_
          -- the first in the queue is ready now
          have hget : (k.processes.modify s fun P => { P with state := .ready }).get p
              = some { P with state := .ready } := Store.modify_self_of hP₀ hps
          have hP : (k.processes.modify s fun P => { P with state := .ready }).get p = some P := hP
          rw [hget] at hP
          rw [← Option.some.inj hP] at hb
          cases hb
        · rw [Function.update_of_ne hqq]
          exact hmem
    · cases hb

theorem Phase.wake (h : Phase k₀ k) (q : Waitq) : Phase k₀ (k.processWake q).2 := by
  obtain ⟨_, hrel⟩ := h.sound.queued.wake q
  have hsame : (k.processWake q).2.currentProcess = k.currentProcess
      ∧ (k.processWake q).2.processes.next = k.processes.next := by
    unfold processWake
    cases k.waitqs q with
    | nil => exact ⟨rfl, rfl⟩
    | cons r rest => exact ⟨rfl, rfl⟩
  refine h.step (h.sound.wake q) hsame.1 hsame.2 fun {r R'} _ hR' => ?_
  obtain ⟨R, hR, hroused⟩ := hrel.back hR'
  refine ⟨R, hR, ?_⟩
  rcases hroused with rfl | ⟨hb, rfl⟩
  · exact ⟨rfl, .inl rfl⟩
  · exact ⟨rfl, .inr ⟨hb, rfl⟩⟩

theorem Going.wake (h : Going k₀ p k) (q : Waitq) : Going k₀ p (k.processWake q).2 := by
  obtain ⟨P, hP, hsuspend, hstate⟩ := h.awake
  exact ⟨h.toPhase.wake q, h.mine, P, rel_get (h.sound.queued.wake q).2 hP hstate, hsuspend, hstate⟩

theorem Going.wakeQueues : ∀ (qs : List Waitq) {k : Kernel}, Going k₀ p k →
    Going k₀ p (k.wakeQueues qs)
  | [], _, h => h
  | q :: qs, _, h => Going.wakeQueues qs (h.wake q)

theorem Phase.wakeQueues : ∀ (qs : List Waitq) {k : Kernel}, Phase k₀ k → Phase k₀ (k.wakeQueues qs)
  | [], _, h => h
  | q :: qs, _, h => Phase.wakeQueues qs (h.wake q)

/-- **Going to sleep** makes an entry and suspends the process. -/
theorem Going.sleep (h : Going k₀ p k) (q : Waitq) (call : KernelCall) :
    Ended k₀ (k.processSleep p q call) := by
  obtain ⟨P, hP, _, hstate⟩ := h.awake
  have hcur : k.currentProcess = some p := h.current.trans h.mine
  have hne : ∀ {r}, r ≠ p → (k.processSleep p q call).processes.get r = k.processes.get r :=
    fun hr => Store.modify_ne hr
  have hself : (k.processSleep p q call).processes.get p
      = some { P with state := .blocked, suspend := some call } := Store.modify_self_of hP rfl
  refine ⟨h.toPhase.step ⟨h.sound.all, h.sound.fresh, h.sound.run, fun {r} hr => ?_,
    h.sound.queued.sleep hP hstate q call, fun {r R} hR hb => ?_⟩ rfl rfl fun {r R'} hr hR' => ?_,
    fun {p' P'} hp' hP' => ?_⟩
  · obtain ⟨hall, hready, hcur'⟩ := h.sound.runnable hr
    obtain ⟨R, hR, hs⟩ := isReady_iff.mp hready
    have hrp : r ≠ p := fun hrp => hcur' (by rw [hcur, hrp])
    exact ⟨hall, isReady_iff.mpr ⟨R, (hne hrp).trans hR, hs⟩, hcur'⟩
  · by_cases hrp : r = p
    · refine ⟨q, ?_⟩
      show r ∈ Function.update k.waitqs q (p :: k.waitqs q) q
      rw [Function.update_self, hrp]
      exact List.mem_cons_self ..
    · obtain ⟨q', hmem⟩ := h.sound.entry ((hne hrp).symm.trans hR) hb
      refine ⟨q', ?_⟩
      show r ∈ Function.update k.waitqs q (p :: k.waitqs q) q'
      by_cases hqq : q' = q
      · subst hqq
        rw [Function.update_self]
        exact List.mem_cons_of_mem _ hmem
      · rw [Function.update_of_ne hqq]
        exact hmem
  · have hrp : r ≠ p := fun hrp => hr (by rw [hcur, hrp])
    exact ⟨R', (hne hrp).symm.trans hR', rfl, .inl rfl⟩
  · rw [h.mine] at hp'
    cases hp'
    rw [hself] at hP'
    cases hP'
    simp

/-! ## New processes -/

/-- A process is made, ready and in front of `all_processes`. -/
theorem Sound.made (h : k.Sound) (hall : k'.allProcesses = k.processes.next :: k.allProcesses)
    (hnext : k'.processes.next = k.processes.next + 1) (hrun : k'.runQueue = k.runQueue)
    (hcur : k'.currentProcess = k.currentProcess) (hwait : k'.waitqs = k.waitqs)
    (hold : ∀ {r R}, k.processes.get r = some R → ∃ R', k'.processes.get r = some R' ∧ R'.state = R.state)
    (hback : ∀ {r R'}, k'.processes.get r = some R' → R'.state = .blocked →
      ∃ R, k.processes.get r = some R ∧ R.state = .blocked) : k'.Sound := by
  refine ⟨?_, fun {p} hp => ?_, hrun ▸ h.run, fun {r} hr => ?_, ?_, fun {p P} hP hb => ?_⟩
  · rw [hall]
    exact List.nodup_cons.mpr ⟨fun hmem => Nat.lt_irrefl _ (h.fresh hmem), h.all⟩
  · rw [hall] at hp
    rw [hnext]
    rcases List.mem_cons.mp hp with rfl | hp
    · exact Nat.lt_succ_self _
    · exact Nat.lt_succ_of_lt (h.fresh hp)
  · rw [hrun] at hr
    obtain ⟨hmem, hready, hne⟩ := h.runnable hr
    obtain ⟨R, hR, hs⟩ := isReady_iff.mp hready
    obtain ⟨R', hR', hs'⟩ := hold hR
    refine ⟨hall ▸ List.mem_cons_of_mem _ hmem, isReady_iff.mpr ⟨R', hR', hs'.trans hs⟩, ?_⟩
    rw [hcur]
    exact hne
  · exact h.queued.sub (fun q => by rw [hwait]) fun _ hP => hold hP
  · obtain ⟨P₀, hP₀, hb₀⟩ := hback hP hb
    rw [hwait]
    exact h.entry hP₀ hb₀

theorem Sound.create (h : k.Sound) (sp pc : Nat) : (k.processCreate sp pc).Sound := by
  refine h.made rfl rfl rfl rfl rfl (fun {r R} hR => ⟨R, ?_, rfl⟩) fun {r R'} hR' hb => ?_
  · rw [processCreate_get, if_neg (Nat.ne_of_lt (Store.lt_next hR)), hR]
  · rw [processCreate_get] at hR'
    split at hR'
    · cases hR'
      exact absurd hb (by simp [createdProcess, newProcess])
    · exact ⟨R', hR', hb⟩

theorem Going.fork (h : Going k₀ p k) (hf : k.processFork p = .ok (r, k')) : Going k₀ p k' := by
  obtain ⟨P, hP, hsuspend, hstate⟩ := h.awake
  obtain ⟨P', hP', h1⟩ := processFork_ok hf
  obtain rfl := Option.some.inj (hP.symm.trans hP')
  obtain ⟨files, pipes, rfl⟩ := countupFiles_files h1
  have hself : (k.forkProcess p P).processes.get p
      = some { P with children := k.processes.next :: P.children } := by
    rw [forkProcess_get hP, if_neg (Nat.ne_of_lt (Store.lt_next hP)), if_pos rfl]
  have hfork : Going k₀ p (k.forkProcess p P) := by
    refine ⟨⟨h.sound.made rfl rfl rfl rfl rfl (fun {r R} hR => ?_) fun {r R'} hR' hb => ?_, h.current,
      Nat.le_succ_of_le h.next, fun {r R'} hr hR' => ?_⟩, h.mine, _, hself, hsuspend, hstate⟩
    · by_cases hrp : r = p
      · subst hrp
        rw [hP] at hR
        cases hR
        exact ⟨_, hself, rfl⟩
      · exact ⟨R, by rw [forkProcess_get hP, if_neg (Nat.ne_of_lt (Store.lt_next hR)), if_neg hrp, hR],
          rfl⟩
    · rcases forkProcess_cases hP hR' with ⟨_, rfl⟩ | ⟨rfl, rfl⟩ | hR
      · exact absurd hb (by simp [forkChild, newProcess])
      · exact ⟨P, hP, hb⟩
      · exact ⟨R', hR, hb⟩
    · rcases forkProcess_cases hP hR' with ⟨rfl, rfl⟩ | ⟨rfl, rfl⟩ | hR
      · exact .inr ⟨h.next, rfl, rfl⟩
      · exact absurd h.mine hr
      · exact h.others hr hR
  exact hfork.files files pipes

/-! ## Exit -/

theorem Going.releaseFile (h : Going k₀ p k) {file : Nat} (hr : k.releaseFile file = .ok k') :
    Going k₀ p k' :=
  releaseFile_keeps (fun _ q _ h => h.wake q) (fun _ files pipes h => h.files files pipes) h hr

theorem Going.releaseFiles : ∀ (is : List (Fin maxFdSize)) {k k' : Kernel}, Going k₀ p k →
    k.releaseFiles p is = .ok k' → Going k₀ p k'
  | [], _, _, h, hr => by
    cases hr
    exact h
  | i :: is, k, k', h, hr => by
    unfold Kernel.releaseFiles at hr
    split at hr
    · exact Going.releaseFiles is h hr
    · obtain ⟨k1, h1, hr⟩ := bind_eq_ok hr
      have hown := h.own (f := fun P => { P with files := P.files.set i none })
        fun _ hs hb => ⟨hs, hb⟩
      exact Going.releaseFiles is (hown.releaseFile h1) hr

theorem Going.exit (h : Going k₀ p k) {status : Int} (he : k.processExit p status = .ok k') :
    Going k₀ p k' := by
  obtain ⟨k1, h1, he⟩ := bind_eq_ok he
  cases he
  have hown := h.own (f := fun P => { P with state := .dead, exitStatus := status })
    fun _ hs _ => ⟨hs, by simp⟩
  exact (Going.releaseFiles _ hown h1).wake .child

/-! ## Wait -/

theorem reparent_eq (parent : Nat → Nat) : ∀ (cs : List Nat) (k : Kernel), ∃ processes,
    k.reparent parent cs = { k with processes } ∧ processes.next = k.processes.next
  | [], k => ⟨k.processes, rfl, rfl⟩
  | c :: cs, k => by
    obtain ⟨processes, heq, hnext⟩ := reparent_eq parent cs
      (k.update c fun C => { C with parent := parent c })
    exact ⟨processes, heq, hnext⟩

theorem handOver_eq (k : Kernel) (cs : List Nat) : ∃ processes,
    k.handOver cs = { k with processes } ∧ processes.next = k.processes.next := by
  unfold handOver
  split
  · exact ⟨k.processes, rfl, rfl⟩
  cases k.findToplevelProcess with
  | none => exact reparent_eq id cs k
  | some t =>
    obtain ⟨processes, heq, hnext⟩ := reparent_eq (fun _ => t) cs k
    simp only
    rw [heq]
    exact ⟨_, rfl, hnext⟩

/-- The lists after a process was destroyed. -/
theorem processDestroy_lists (h : k.processDestroy p c = .ok k') :
    k'.runQueue = k.runQueue.erase c ∧ k'.allProcesses = k.allProcesses.erase c
      ∧ k'.currentProcess = k.currentProcess ∧ k'.waitqs = k.waitqs
      ∧ k'.processes.next = k.processes.next ∧ k'.maxId = k.maxId := by
  unfold processDestroy at h
  split at h
  · rename_i W C _ _
    split at h
    · cases h
    cases h
    obtain ⟨processes, heq, hnext⟩ := handOver_eq
      { k.update p fun W => { W with children := W.children.erase c } with
        runQueue := k.runQueue.erase c
        allProcesses := k.allProcesses.erase c } C.children
    rw [heq]
    exact ⟨rfl, rfl, rfl, rfl, hnext, rfl⟩
  · cases h

/-- A dead process is in no queue, and nothing is left that names it. -/
theorem Going.destroy (h : Going k₀ p k) {C : Process} (hC : k.processes.get c = some C)
    (hdead : C.state = .dead) (hd : k.processDestroy p c = .ok k') : Going k₀ p k' := by
  obtain ⟨P, hP, hsuspend, hstate⟩ := h.awake
  obtain ⟨hpc, hget⟩ := processDestroy_get hP hC hd
  obtain ⟨hrun, hall, hcur, hwait, hnext, _⟩ := processDestroy_lists hd
  -- who is left keeps its state and its context
  have hforth : ∀ {r R}, k.processes.get r = some R → r ≠ c → ∃ R', k'.processes.get r = some R'
      ∧ R'.state = R.state ∧ R'.suspend = R.suspend := by
    intro r R hR hrc
    refine ⟨_, by rw [hget r, if_neg hrc, hR]; rfl, ?_⟩
    split <;> exact ⟨rfl, rfl⟩
  have hback : ∀ {r R'}, k'.processes.get r = some R' → ∃ R, k.processes.get r = some R
      ∧ R'.state = R.state ∧ R'.suspend = R.suspend := by
    intro r R' hR'
    rw [hget r] at hR'
    split at hR'
    · cases hR'
    · obtain ⟨R, hR, rfl⟩ := Option.map_eq_some_iff.mp hR'
      refine ⟨R, hR, ?_⟩
      split <;> exact ⟨rfl, rfl⟩
  have hsound : k'.Sound := by
    refine ⟨hall ▸ h.sound.all.erase c, fun {r} hr => ?_, hrun ▸ h.sound.run.erase c, fun {r} hr => ?_,
      ?_, fun {r R'} hR' hb => ?_⟩
    · rw [hall] at hr
      rw [hnext]
      exact h.sound.fresh (List.mem_of_mem_erase hr)
    · rw [hrun] at hr
      obtain ⟨hrc, hr⟩ := h.sound.run.mem_erase_iff.mp hr
      obtain ⟨hmem, hready, hne⟩ := h.sound.runnable hr
      obtain ⟨R, hR, hs⟩ := isReady_iff.mp hready
      obtain ⟨R', hR', hs', _⟩ := hforth hR hrc
      rw [hall, hcur]
      exact ⟨h.sound.all.mem_erase_iff.mpr ⟨hrc, hmem⟩, isReady_iff.mpr ⟨R', hR', hs'.trans hs⟩, hne⟩
    · refine h.sound.queued.sub (fun q => by rw [hwait]) fun {r q R} hmem hR => ?_
      rw [hwait] at hmem
      have hrc : r ≠ c := fun hrc => by
        rw [hrc] at hmem
        exact h.sound.queued.not_mem hC (by rw [hdead]; simp) q hmem
      obtain ⟨R', hR', hs, _⟩ := hforth hR hrc
      exact ⟨R', hR', hs⟩
    · obtain ⟨R, hR, hs, _⟩ := hback hR'
      rw [hwait]
      exact h.sound.entry hR (hs ▸ hb)
  obtain ⟨P', hP', hs', hsuspend'⟩ := hforth hP hpc
  refine ⟨h.toPhase.step hsound hcur hnext fun {r R'} _ hR' => ?_, h.mine, P', hP',
    hsuspend'.trans hsuspend, by rw [hs']; exact hstate⟩
  obtain ⟨R, hR, hs, hsusp⟩ := hback hR'
  exact ⟨R, hR, hsusp, .inl hs⟩

theorem Going.waitLoop (h : Going k₀ p k) {r : Option Waited} (hw : k.processWaitLoop p = .ok (r, k')) :
    Ended k₀ (k'.waited p r) := by
  obtain ⟨P, _, ⟨_, rfl, rfl⟩ | ⟨c, C, hfind, hC, hd, rfl⟩⟩ := processWaitLoop_ok hw
  · exact h.sleep .child .wait
  · have hdead := (isDead_iff hC).mp (List.find?_some hfind)
    exact ((h.destroy hC hdead hd).setResult p C.id).ended

theorem Going.wait (h : Going k₀ p k) {r : Option Waited} (hw : k.processWait p = .ok (r, k')) :
    Ended k₀ (k'.waited p r) := by
  rcases processWait_ok hw with ⟨rfl, rfl⟩ | hw
  · exact (h.setResult p echild).ended
  · exact h.waitLoop hw

/-! ## From dispatch to switch -/

theorem Going.otherCall (h : Going k₀ p k) {signal : ProcessSignal} {wakes : List Waitq}
    {sleep : Option Waitq} (ho : k.otherCall p signal wakes sleep = .ok k') : Ended k₀ k' := by
  unfold Kernel.otherCall at ho
  split at ho
  · cases ho
  have hsignal := h.update p (f := fun P => { P with signal }) fun _ => ⟨rfl, rfl⟩
  cases sleep with
  | none =>
    cases ho
    exact (Going.wakeQueues wakes hsignal).ended
  | some q =>
    cases ho
    exact (Going.wakeQueues wakes hsignal).sleep q .other

theorem Going.call (h : Going k₀ p k) {c : Call} (hc : k.call p c = .ok k') : Ended k₀ k' := by
  cases c with
  | fork =>
    obtain ⟨⟨r, k1⟩, hf, hc⟩ := bind_eq_ok hc
    cases hc
    exact ((h.fork hf).setResult p r).ended
  | exit status => exact (h.exit hc).ended
  | wait =>
    obtain ⟨⟨r, k1⟩, hw, hc⟩ := bind_eq_ok hc
    cases hc
    exact h.wait hw
  | kill pid sig =>
    cases hc
    have hkill : Going k₀ p (k.processKill pid sig).2 := by
      unfold processKill
      split
      · exact h
      split
      · exact h
      split
      · exact h
      · exact h.update _ fun _ => ⟨rfl, rfl⟩
    exact (hkill.setResult p _).ended
  | other signal wakes sleep => exact h.otherCall hc

/-- **From a dispatch to the next `process_switch`.** -/
theorem Dispatchable.proceed (h : k.Dispatchable) (hcur : k.currentProcess = some p) {entry : Entry}
    {c : Call} {d : Dispatch} {k1 : Kernel} {m : Bytes}
    (hd : k.processDispatch p entry.memory entry.beyond = .ok (d, k1, m))
    (hc : k1.proceed p entry.context c d = .ok k') : Ended k k' := by
  obtain ⟨P, hP, hready⟩ := isReady_iff.mp (h.dispatched hcur)
  have hawake : P.state ≠ .blocked := by rw [hready]; simp
  have hphase := h.toSound.phase
  -- a process that was not suspended goes on
  have hgoing : P.suspend = none → Going k p k := fun hs => ⟨hphase, hcur, P, hP, hs, hawake⟩
  have huser : ∀ {k1 : Kernel}, Going k p k1 → (k1.setContext p entry.context).call p c = .ok k' →
      Ended k k' := fun hg hc =>
    (hg.update p (f := fun P => { P with context := entry.context }) fun _ => ⟨rfl, rfl⟩).call hc
  cases processDispatch_cases hP hd with
  | @resume call hs =>
    have hg : Going k p (k.update p fun P => { P with suspend := none }) :=
      ⟨hphase.own hcur hP hawake hawake, hcur, _, Store.modify_self_of hP rfl, rfl, hawake⟩
    cases call with
    | wait =>
      obtain ⟨⟨r, k2⟩, hw, hc⟩ := bind_eq_ok hc
      cases hc
      exact hg.waitLoop hw
    | other =>
      cases c with
      | other signal wakes sleep => exact hg.otherCall hc
      | fork | exit | wait | kill => exact absurd hc (by simp [Kernel.proceed])
  | exited hs _ he =>
    cases hc
    exact ((hgoing hs).exit he).ended
  | undisturbed hs _ _ => exact huser (hgoing hs) hc
  | ignored hs _ _ =>
    refine huser ?_ hc
    exact (hgoing hs).own fun _ hs hb => ⟨hs, hb⟩
  | handled hs _ _ =>
    refine huser ?_ hc
    exact (hgoing hs).own fun _ hs hb => ⟨hs, hb⟩
  | stray => exact absurd hc (by simp [Kernel.proceed])

/-! ## The switch -/

theorem processSchedule_runQueue (h : k.runQueue = []) :
    k.processSchedule.runQueue = (k.allProcesses.filter k.isReady).reverse := by
  have hfold : ∀ (ps queue : List Nat), ps.foldl (fun queue p =>
      if (k.processes.get p).any (fun P => P.state == .ready) then p :: queue else queue) queue
      = (ps.filter k.isReady).reverse ++ queue := by
    intro ps
    induction ps with
    | nil => exact fun _ => rfl
    | cons p ps ih =>
      intro queue
      rw [List.foldl_cons, ih]
      by_cases hp : k.isReady p = true
      · have hp' : (k.processes.get p).any (fun P => P.state == .ready) = true := hp
        rw [if_pos hp', List.filter_cons_of_pos hp]
        simp
      · have hp' : ¬ (k.processes.get p).any (fun P => P.state == .ready) = true := hp
        rw [if_neg hp', List.filter_cons_of_neg hp]
  refine (hfold k.allProcesses k.runQueue).trans ?_
  rw [h, List.append_nil]

/-- What `process_switch` chooses from: processes that may run. -/
theorem processSwitch_cases (h : k.Sound) : ∃ queue : List Nat,
    queue.Nodup ∧ (∀ r ∈ queue, r ∈ k.allProcesses ∧ k.isReady r = true)
      ∧ k.processSwitch = match queue with
        | [] => { k with runQueue := [], currentProcess := none }
        | p :: rest => { k with runQueue := rest, currentProcess := some p } := by
  unfold processSwitch
  by_cases hempty : k.runQueue = []
  · rw [if_pos hempty]
    refine ⟨k.processSchedule.runQueue, ?_, fun r hr => ?_, ?_⟩
    · rw [processSchedule_runQueue hempty, List.nodup_reverse]
      exact h.all.filter _
    · rw [processSchedule_runQueue hempty, List.mem_reverse, List.mem_filter] at hr
      exact hr
    · unfold processDequeue
      cases hq : k.processSchedule.runQueue with
      | nil =>
        have hk : k.processSchedule = { k with runQueue := k.processSchedule.runQueue } := rfl
        rw [hk]
      | cons p rest => rfl
  · rw [if_neg hempty]
    refine ⟨k.runQueue, h.run, fun r hr => ?_, ?_⟩
    · obtain ⟨hall, hready, _⟩ := h.runnable hr
      exact ⟨hall, hready⟩
    · unfold processDequeue
      cases hq : k.runQueue with
      | nil => exact absurd hq hempty
      | cons p rest => rfl

/-- **Whom `process_switch` chooses may run**, and is in the run queue no more. -/
theorem Sound.switch (h : k.Sound) : k.processSwitch.Dispatchable := by
  obtain ⟨queue, hnodup, hready, hswitch⟩ := processSwitch_cases h
  rw [hswitch]
  have hqueued : ∀ queue current, Queued { k with runQueue := queue, currentProcess := current } :=
    fun _ _ => ⟨h.queued.blocked, h.queued.unique, h.queued.nodup⟩
  cases queue with
  | nil => exact ⟨⟨h.all, h.fresh, List.nodup_nil, fun hr => absurd hr (by simp), hqueued _ _, h.entry⟩,
      fun hp => absurd hp (by simp)⟩
  | cons p rest =>
    obtain ⟨hp, hrest⟩ := List.nodup_cons.mp hnodup
    refine ⟨⟨h.all, h.fresh, hrest, fun {r} hr => ?_, hqueued _ _, h.entry⟩, fun hcur => ?_⟩
    · obtain ⟨hall, hr'⟩ := hready r (List.mem_cons_of_mem _ hr)
      refine ⟨hall, hr', fun hcur => hp ?_⟩
      rw [Option.some.inj hcur]
      exact hr
    · rw [← Option.some.inj hcur]
      exact (hready p (List.mem_cons_self ..)).2

theorem waitStep_ended (h : k.Dispatchable) {a : WaitAct} (hs : k.waitStep a = .ok k') :
    ∃ k1, Ended k k1 ∧ k' = k1.processSwitch := by
  cases a with
  | interrupt wakes =>
    simp only [waitStep] at hs
    split at hs
    · rename_i hidle
      cases hs
      refine ⟨_, ⟨Phase.wakeQueues wakes h.toSound.phase, fun hp => ?_⟩, rfl⟩
      rw [hidle.1] at hp
      cases hp
    · cases hs
  | dispatch entry c =>
    simp only [waitStep] at hs
    cases hcur : k.currentProcess with
    | none =>
      rw [hcur] at hs
      cases hs
    | some p =>
      rw [hcur] at hs
      obtain ⟨⟨d, k1, m⟩, hd, hs⟩ := bind_eq_ok hs
      obtain ⟨k2, hpro, hs⟩ := bind_eq_ok hs
      cases hs
      exact ⟨k2, h.proceed hcur hd hpro, rfl⟩

theorem empty_dispatchable : Kernel.empty.Dispatchable :=
  ⟨⟨List.nodup_nil, fun h => absurd h (by simp [Kernel.empty]), List.nodup_nil,
    fun h => absurd h (by simp [Kernel.empty]), empty_queued,
    fun h => absurd h (by simp [Kernel.empty, Store.empty])⟩,
    fun h => absurd h (by simp [Kernel.empty])⟩

theorem Sound.oneEntry_iff (h : k.Sound) (hP : k.processes.get p = some P) :
    P.state = .blocked ↔ k.OneEntry p := by
  constructor
  · intro hb
    obtain ⟨q, hmem⟩ := h.entry hP hb
    refine ⟨q, List.count_eq_one_of_mem (h.queued.nodup q) hmem, fun q' hq hmem' => ?_⟩
    exact hq (h.queued.unique hmem' hmem)
  · rintro ⟨q, hcount, _⟩
    obtain ⟨P', hP', hb⟩ := h.queued.blocked (List.count_pos_iff.mp (hcount ▸ Nat.one_pos))
    rw [hP] at hP'
    cases hP'
    exact hb

def isBlocked (k : Kernel) (p : Nat) : Bool := (k.processes.get p).any fun P => P.state == .blocked

end Kernel

/-! ## Runs -/

/-- The kernel, with the processes that were woken and not dispatched since. -/
structure Watched where
  kernel : Kernel
  woken : Nat → Bool

inductive SchedAct where
  | create (sp pc : Nat)
  /-- From one dispatch, or idle state, to the next. -/
  | step (a : WaitAct)

namespace Watched

def empty : Watched := ⟨.empty, fun _ => false⟩

/-- The process that is dispatched has been woken no more; one that was blocked and is ready
has been. -/
def step (s : Watched) : SchedAct → Except Halt Watched
  | .create sp pc => .ok { s with kernel := s.kernel.processCreate sp pc }
  | .step a => (s.kernel.waitStep a).map fun k =>
    { kernel := k
      woken := fun r =>
        if s.kernel.currentProcess = some r then false
        else s.woken r || (s.kernel.isBlocked r && k.isReady r) }

/-- A context is kept for those that sleep, and for those that were woken and have yet to be
dispatched. -/
structure Inv (s : Watched) : Prop where
  dispatchable : s.kernel.Dispatchable
  suspended : ∀ {r R}, s.kernel.processes.get r = some R →
    (R.suspend.isSome ↔ R.state = .blocked ∨ s.woken r = true)
  known : ∀ {r}, s.woken r = true → r < s.kernel.processes.next

variable {s s' : Watched}

theorem Inv.create (h : s.Inv) (sp pc : Nat) :
    Inv { s with kernel := s.kernel.processCreate sp pc } := by
  have hsound := h.dispatchable.toSound.create sp pc
  refine ⟨⟨hsound, fun {p} hp => ?_⟩, fun {r R} hR => ?_, fun hw => Nat.lt_succ_of_lt (h.known hw)⟩
  · obtain ⟨P, hP, hs⟩ := Kernel.isReady_iff.mp (h.dispatchable.dispatched hp)
    refine Kernel.isReady_iff.mpr ⟨P, ?_, hs⟩
    rw [Kernel.processCreate_get, if_neg (Nat.ne_of_lt (Store.lt_next hP)), hP]
  · rw [Kernel.processCreate_get] at hR
    split at hR
    · rename_i hr
      cases hR
      have hnot : s.woken r = false := by
        rw [Bool.eq_false_iff]
        exact fun hw => Nat.ne_of_lt (h.known hw) hr
      simp [Kernel.createdProcess, Kernel.newProcess, hnot]
    · exact h.suspended hR

theorem Inv.waitStep (h : s.Inv) {a : SchedAct} (hs : s.step a = .ok s') : s'.Inv := by
  cases a with
  | create sp pc =>
    cases hs
    exact h.create sp pc
  | step a =>
    obtain ⟨k', hk', rfl⟩ := map_eq_ok hs
    obtain ⟨k1, hended, rfl⟩ := Kernel.waitStep_ended h.dispatchable hk'
    have hprocs := Kernel.processSwitch_processes k1
    refine ⟨hended.sound.switch, fun {r R'} hR' => ?_, fun {r} hw => ?_⟩
    · have hR' : k1.processes.get r = some R' := hprocs ▸ hR'
      have hready : k1.processSwitch.isReady r = (R'.state == .ready) := by
        simp [Kernel.isReady, hprocs, hR']
      simp only [hready]
      by_cases hcur : s.kernel.currentProcess = some r
      · rw [if_pos hcur]
        simpa using hended.own hcur hR'
      rw [if_neg hcur]
      rcases hended.others hcur hR' with ⟨R, hR, hsuspend, hstate⟩ | ⟨hnew, hstate, hnone⟩
      · have hblocked : s.kernel.isBlocked r = (R.state == .blocked) := by
          simp [Kernel.isBlocked, hR]
        have hold := h.suspended hR
        rw [hsuspend, hblocked, hold]
        rcases hstate with hstate | ⟨hb, hstate⟩
        · rw [hstate]
          cases hR : R.state <;> simp
        · simp [hb, hstate]
      · -- a process that was made in this step
        have hget : s.kernel.processes.get r = none := by
          cases hget : s.kernel.processes.get r with
          | none => rfl
          | some R => exact absurd (Store.lt_next hget) (Nat.not_lt.mpr hnew)
        have hnot : s.woken r = false := by
          rw [Bool.eq_false_iff]
          exact fun hw => Nat.not_lt.mpr hnew (h.known hw)
        simp [Kernel.isBlocked, hget, hnot, hstate, hnone]
    · have hw : (if s.kernel.currentProcess = some r then false
          else s.woken r || (s.kernel.isBlocked r && k1.processSwitch.isReady r)) = true := hw
      have hle : s.kernel.processes.next ≤ k1.processSwitch.processes.next := hprocs ▸ hended.next
      split at hw
      · cases hw
      · rcases Bool.or_eq_true_iff.mp hw with hw | hw
        · exact Nat.lt_of_lt_of_le (h.known hw) hle
        · obtain ⟨R, hR, _⟩ := Kernel.isReady_iff.mp (Bool.and_eq_true_iff.mp hw).2
          exact Store.lt_next hR

theorem empty_inv : empty.Inv :=
  ⟨Kernel.empty_dispatchable, fun h => absurd h (by simp [empty, Kernel.empty, Store.empty]),
    fun h => absurd h (by simp [empty])⟩

end Watched

/-- **The scheduler is a sound state machine.** In every run, whenever a process is dispatched
or the machine goes idle: the run queue lists processes once, which are ready, alive and not
the one that is dispatched; those that are blocked have exactly one entry in the wait queues,
and the others have none; those that are suspended are blocked, or woken and not dispatched
since; and the process that is dispatched is ready. -/
theorem scheduler_state_machine {as : List SchedAct} {s : Watched}
    (hr : Run (fun s a s' => Watched.step s a = .ok s') .empty as s) :
    s.kernel.runQueue.Nodup
      ∧ (∀ r ∈ s.kernel.runQueue, s.kernel.isReady r = true ∧ r ∈ s.kernel.allProcesses
        ∧ s.kernel.currentProcess ≠ some r)
      ∧ (∀ r R, s.kernel.processes.get r = some R → (R.state = .blocked ↔ s.kernel.OneEntry r)
        ∧ (R.state ≠ .blocked → ∀ q, r ∉ s.kernel.waitqs q)
        ∧ (R.suspend.isSome ↔ R.state = .blocked ∨ s.woken r = true))
      ∧ ∀ p, s.kernel.currentProcess = some p → s.kernel.isReady p = true := by
  have hinv : s.Inv := hr.invariant Watched.empty_inv fun _ _ _ h hs => h.waitStep hs
  have hsound := hinv.dispatchable.toSound
  refine ⟨hsound.run, fun r hr => ?_, fun r R hR => ⟨hsound.oneEntry_iff hR, fun hs q => ?_,
    hinv.suspended hR⟩, fun p hp => hinv.dispatchable.dispatched hp⟩
  · obtain ⟨hall, hready, hne⟩ := hsound.runnable hr
    exact ⟨hready, hall, hne⟩
  · exact hsound.queued.not_mem hR hs q

/-- A parent waits for its child, which exits. -/
def childExits : List SchedAct :=
  [.create 0 0, .step (.interrupt []), .step (plainCall .fork), .step (plainCall .wait),
    .step (plainCall (.exit 0))]

theorem scheduler_state_machine_child : ∃ s : Watched,
    Run (fun s a s' => Watched.step s a = .ok s') .empty childExits s
      ∧ s.kernel.currentProcess = some 0 ∧ s.woken 0 = true
      ∧ ∃ R, s.kernel.processes.get 0 = some R ∧ R.suspend.isSome = true ∧ R.state = .ready := by
  obtain ⟨s, hr, hprobe⟩ := Run.of_probe Watched.step .empty childExits
    (fun s => (s.kernel.currentProcess, s.woken 0)) (b := (some 0, true)) (by decide)
  have hcur : s.kernel.currentProcess = some 0 := congrArg Prod.fst hprobe
  have hwoken : s.woken 0 = true := congrArg Prod.snd hprobe
  obtain ⟨_, _, hrecords, hdispatched⟩ := scheduler_state_machine hr
  obtain ⟨R, hR, hready⟩ := Kernel.isReady_iff.mp (hdispatched 0 hcur)
  exact ⟨s, hr, hcur, hwoken, R, hR, (hrecords 0 R hR).2.2.mpr (.inr hwoken), hready⟩

end Cyanurus
