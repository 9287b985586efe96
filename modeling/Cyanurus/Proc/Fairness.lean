import Cyanurus.Proc.Scheduler

/-!
# Fairness

`process_switch` takes the first process of the run queue, and when the queue is empty it is filled
with all processes that are ready. Nothing else changes it: a process that is destroyed is dead, so
it is not in the queue. A process that stays ready is therefore passed over by those before it in
the queue, or by the rest of one round and those before it in the next (**`ready_dispatched`**),
and the machine is idle only when nobody is ready (**`idle_only_if_none_ready`**).
-/

namespace Cyanurus

open Lts

namespace Kernel

variable {k k' : Kernel} {p r n : Nat} {a : WaitAct}

/-! ## The run queue up to the next switch -/

theorem wakeQueues_runQueue : ∀ (qs : List Waitq) (k : Kernel), (k.wakeQueues qs).runQueue = k.runQueue
  | [], _ => rfl
  | q :: qs, k => by
    have hwake : (k.processWake q).2.runQueue = k.runQueue := by
      unfold processWake
      cases k.waitqs q with
      | nil => rfl
      | cons r rest => rfl
    exact (wakeQueues_runQueue qs (k.processWake q).2).trans hwake

theorem otherCall_runQueue {signal : ProcessSignal} {wakes : List Waitq} {sleep : Option Waitq}
    (h : k.otherCall p signal wakes sleep = .ok k') : k'.runQueue = k.runQueue := by
  have hwake := wakeQueues_runQueue wakes (k.update p fun P => { P with signal })
  unfold otherCall at h
  split at h
  · cases h
  cases sleep <;> cases h <;> exact hwake

theorem processExit_runQueue {status : Int} (h : k.processExit p status = .ok k') :
    k'.runQueue = k.runQueue := by
  obtain ⟨k1, hrel, h⟩ := bind_eq_ok h
  cases h
  exact (wakeQueues_runQueue [.child] k1).trans (releaseFiles_released hrel).run

/-- A child that is destroyed was dead. -/
theorem Sound.waitLoop_runQueue (h : k.Sound) {v : Option Waited}
    (hw : k.processWaitLoop p = .ok (v, k')) : (k'.waited p v).runQueue = k.runQueue := by
  obtain ⟨P, hP, ⟨_, rfl, rfl⟩ | ⟨c, C, hfind, hC, hd, rfl⟩⟩ := processWaitLoop_ok hw
  · rfl
  have hdead := (isDead_iff hC).mp (List.find?_some hfind)
  refine (processDestroy_lists hd).1.trans (List.erase_of_not_mem fun hmem => ?_)
  obtain ⟨C', hC', hready⟩ := isReady_iff.mp (h.runnable hmem).2.1
  obtain rfl := Option.some.inj (hC.symm.trans hC')
  exact absurd (hdead.symm.trans hready) (by simp)

theorem Sound.call_runQueue (h : k.Sound) {c : Call} (hc : k.call p c = .ok k') :
    k'.runQueue = k.runQueue := by
  cases c with
  | fork =>
    obtain ⟨⟨v, k1⟩, hf, hc⟩ := bind_eq_ok hc
    cases hc
    obtain ⟨P, _, hcount⟩ := processFork_ok hf
    obtain ⟨files, pipes, rfl⟩ := countupFiles_files hcount
    rfl
  | exit status => exact processExit_runQueue hc
  | wait =>
    obtain ⟨⟨v, k1⟩, hw, hc⟩ := bind_eq_ok hc
    cases hc
    rcases processWait_ok hw with ⟨rfl, rfl⟩ | hw
    · rfl
    · exact h.waitLoop_runQueue hw
  | kill pid sig =>
    obtain rfl : (k.processKill pid sig).2.setResult p (k.processKill pid sig).1 = k' := Except.ok.inj hc
    rcases processKill_cases k pid sig with heq | ⟨r, _, _, heq⟩ <;> rw [heq] <;> rfl
  | other signal wakes sleep => exact otherCall_runQueue hc

/-- The run queue is left alone from a dispatch to the next `process_switch`. -/
theorem Dispatchable.step_runQueue (h : k.Dispatchable) (hs : k.waitStep a = .ok k') :
    ∃ k1 : Kernel, k1.runQueue = k.runQueue ∧ k' = k1.processSwitch := by
  cases a with
  | interrupt wakes =>
    simp only [waitStep] at hs
    split at hs <;> cases hs
    exact ⟨_, wakeQueues_runQueue wakes k, rfl⟩
  | dispatch entry c =>
    simp only [waitStep] at hs
    cases hcur : k.currentProcess with
    | none =>
      rw [hcur] at hs
      cases hs
    | some p =>
      rw [hcur] at hs
      obtain ⟨⟨d, k1, m⟩, hd, hs⟩ := bind_eq_ok hs
      obtain ⟨k2, hpro, hs⟩ := bind_eq_ok hs
      cases hs
      refine ⟨k2, ?_, rfl⟩
      obtain ⟨P, hP, _⟩ := isReady_iff.mp (h.dispatched hcur)
      have huser : ∀ {k1 : Kernel}, k1.Sound → (k1.setContext p entry.context).call p c = .ok k2 →
          k2.runQueue = k1.runQueue := fun h hc =>
        (h.update (f := fun P => { P with context := entry.context }) p fun _ => rfl).call_runQueue hc
      -- a call goes on, or the process is ended, or user code runs into a call
      cases processDispatch_cases hP hd with
      | @resume call hs =>
        cases call with
        | wait =>
          obtain ⟨⟨v, k3⟩, hw, hpro⟩ := bind_eq_ok hpro
          cases hpro
          exact Sound.waitLoop_runQueue (h.toSound.update p (by intro _; rfl)) hw
        | other =>
          cases c with
          | other signal wakes sleep => exact (otherCall_runQueue hpro).trans rfl
          | fork | exit | wait | kill => exact absurd hpro (by simp [Kernel.proceed])
      | exited hs _ he =>
        cases hpro
        exact processExit_runQueue he
      | undisturbed hs _ _ => exact huser h.toSound hpro
      | ignored hs _ _ => exact (huser (h.toSound.update p (by intro _; rfl)) hpro).trans rfl
      | handled hs _ _ => exact (huser (h.toSound.update p (by intro _; rfl)) hpro).trans rfl
      | stray => exact absurd hpro (by simp [Kernel.proceed])

/-! ## Switching -/

/-- Those whom `process_switch` chooses from, with `queue` as the run queue. -/
def candidates (k : Kernel) (queue : List Nat) : List Nat :=
  if queue = [] then (k.allProcesses.filter k.isReady).reverse else queue

theorem processSwitch_candidates (k : Kernel) :
    k.processSwitch.runQueue = (k.processSwitch.candidates k.runQueue).tail
      ∧ k.processSwitch.currentProcess = (k.processSwitch.candidates k.runQueue).head? := by
  have hdequeue : ∀ {k' : Kernel}, k'.processes = k.processes → k'.allProcesses = k.allProcesses →
      k'.runQueue = k.candidates k.runQueue →
      k'.processDequeue.runQueue = (k'.processDequeue.candidates k.runQueue).tail
        ∧ k'.processDequeue.currentProcess = (k'.processDequeue.candidates k.runQueue).head? := by
    intro k' hp hall hq
    have hsame : k'.processDequeue.candidates k.runQueue = k.candidates k.runQueue := by
      unfold candidates isReady processDequeue
      cases k'.runQueue <;> rw [hp, hall]
    rw [hsame, ← hq]
    unfold processDequeue
    cases k'.runQueue <;> exact ⟨rfl, rfl⟩
  unfold processSwitch
  split
  · rename_i hnil
    refine hdequeue rfl rfl ?_
    rw [processSchedule_runQueue hnil, candidates, if_pos hnil]
  · rename_i hne
    exact hdequeue rfl rfl (if_neg hne).symm

theorem Dispatchable.step_candidates (h : k.Dispatchable) (hs : k.waitStep a = .ok k') :
    k'.runQueue = (k'.candidates k.runQueue).tail
      ∧ k'.currentProcess = (k'.candidates k.runQueue).head? := by
  obtain ⟨k1, hrun, rfl⟩ := h.step_runQueue hs
  exact hrun ▸ processSwitch_candidates k1

/-- How often a process that is ready may be passed over, when there are at most `n` processes. -/
def turns (n r : Nat) (queue : List Nat) : Nat :=
  if r ∈ queue then queue.idxOf r else queue.length + n

/-- A step to a dispatch or to idle state. One of at most `n` processes is ready there, but is not
dispatched. -/
def PassesOver (n r : Nat) (k : Kernel) (a : WaitAct) (k' : Kernel) : Prop :=
  k.waitStep a = .ok k' ∧ k'.allProcesses.length ≤ n ∧ r ∈ k'.allProcesses ∧ k'.isReady r = true
    ∧ k'.currentProcess ≠ some r

theorem PassesOver.turns (h : k.Dispatchable) (hs : PassesOver n r k a k') :
    Kernel.turns n r k'.runQueue < Kernel.turns n r k.runQueue := by
  obtain ⟨hs, hn, hr, hready, hnot⟩ := hs
  obtain ⟨hrun, hcur⟩ := h.step_candidates hs
  rw [hcur] at hnot
  rw [hrun]
  unfold Kernel.turns
  -- who is not the first of those to choose from is one place further on
  cases hq : k.runQueue with
  | nil =>
    have hmem : r ∈ k'.candidates [] := List.mem_reverse.mpr (List.mem_filter.mpr ⟨hr, hready⟩)
    have hlen : (k'.candidates []).length ≤ n :=
      (List.length_reverse ..).trans_le ((List.length_filter_le ..).trans hn)
    rw [hq] at hnot
    generalize k'.candidates [] = queue at hmem hlen hnot
    cases queue with
    | nil => cases hmem
    | cons q rest =>
      have hrest := (List.mem_cons.mp hmem).resolve_left fun h => hnot (congrArg some h.symm)
      have hidx := List.idxOf_lt_length_of_mem hrest
      rw [List.length_cons] at hlen
      rw [List.tail_cons, if_pos hrest, if_neg List.not_mem_nil, List.length_nil]
      omega
  | cons q rest =>
    have hne : q ≠ r := fun h => hnot (by rw [hq, h]; rfl)
    have htail : (k'.candidates (q :: rest)).tail = rest := rfl
    rw [htail]
    by_cases hrest : r ∈ rest
    · simp [hrest, List.idxOf_cons_ne _ hne]
    · simp [hrest, hne.symm]

end Kernel

/-- **A process that is ready is dispatched.** From every state that a run reaches, however it goes
on, a process that stays ready is passed over at most as often as there are others before it in the
run queue; or, if it is not in the queue, as often as there are processes in the queue and besides. -/
theorem ready_dispatched {as : List SchedAct} {s : Watched} {cs : List WaitAct} {k : Kernel} {n r : Nat}
    (hrun : Run (fun s a s' => Watched.step s a = .ok s') .empty as s)
    (hover : Run (Kernel.PassesOver n r) s.kernel cs k) :
    cs.length ≤ Kernel.turns n r s.kernel.runQueue := by
  have hinv : s.Inv := hrun.invariant Watched.empty_inv fun _ _ _ h hs => h.waitStep hs
  suffices h : k.Dispatchable
      ∧ cs.length + Kernel.turns n r k.runQueue ≤ Kernel.turns n r s.kernel.runQueue from
    Nat.le_trans (Nat.le_add_right ..) h.2
  induction hover with
  | nil => exact ⟨hinv.dispatchable, by simp⟩
  | snoc _ hs ih =>
    obtain ⟨hd, hle⟩ := ih
    have hlt := hs.turns hd
    obtain ⟨k1, hended, rfl⟩ := Kernel.waitStep_ended hd hs.1
    exact ⟨hended.sound.switch, by rw [List.length_append, List.length_singleton]; omega⟩

/-- The first process has a child, and makes room for it. -/
def parentAndChild : List SchedAct :=
  [.create 0 0, .step (.interrupt []), .step (plainCall .fork)]

theorem ready_dispatched_parent : ∃ s k,
    Run (fun s a s' => Watched.step s a = .ok s') .empty parentAndChild s
      ∧ Run (Kernel.PassesOver 2 0) s.kernel [plainCall (.kill 0 0)] k
      ∧ 1 ≤ Kernel.turns 2 0 s.kernel.runQueue := by
  obtain ⟨s, hr, hprobe⟩ := Run.of_probe Watched.step .empty parentAndChild
    (fun s => (s.kernel.waitStep (plainCall (.kill 0 0))).toOption.map fun k =>
      (k.allProcesses, k.isReady 0, k.currentProcess)) (b := some ([1, 0], true, some 1)) (by decide)
  obtain ⟨k, hs, hk⟩ := eq_ok_of_probe hprobe
  simp only [Prod.mk.injEq] at hk
  obtain ⟨hall, hready, hcur⟩ := hk
  have hover : Run (Kernel.PassesOver 2 0) s.kernel ([] ++ [plainCall (.kill 0 0)]) k :=
    Run.nil.snoc ⟨hs, by simp [hall], by simp [hall], hready, by simp [hcur]⟩
  exact ⟨s, k, hr, hover, ready_dispatched hr hover⟩

/-- **The machine is idle only if nobody is ready**, after every run. -/
theorem idle_only_if_none_ready {as : List SchedAct} {s : Watched} {a : WaitAct} {k : Kernel}
    (hrun : Run (fun s a s' => Watched.step s a = .ok s') .empty as s)
    (hs : s.kernel.waitStep a = .ok k) (hidle : k.currentProcess = none) :
    ∀ r ∈ k.allProcesses, k.isReady r = false := by
  have hinv : s.Inv := hrun.invariant Watched.empty_inv fun _ _ _ h hs => h.waitStep hs
  obtain ⟨_, hcur⟩ := hinv.dispatchable.step_candidates hs
  rw [hidle] at hcur
  have hnil := List.head?_eq_none_iff.mp hcur.symm
  intro r hr
  by_contra hready
  unfold Kernel.candidates at hnil
  split at hnil
  · have hmem : r ∈ k.allProcesses.filter k.isReady :=
      List.mem_filter.mpr ⟨hr, Bool.eq_true_of_not_eq_false hready⟩
    rw [List.reverse_eq_nil_iff.mp hnil] at hmem
    cases hmem
  · contradiction

/-- The only process exits. -/
theorem idle_only_if_none_ready_exit : ∃ s k,
    Run (fun s a s' => Watched.step s a = .ok s') .empty [.create 0 0, .step (.interrupt [])] s
      ∧ s.kernel.waitStep (plainCall (.exit 0)) = .ok k ∧ k.allProcesses = [0]
      ∧ ∀ r ∈ k.allProcesses, k.isReady r = false := by
  obtain ⟨s, hr, hprobe⟩ := Run.of_probe Watched.step .empty [.create 0 0, .step (.interrupt [])]
    (fun s => (s.kernel.waitStep (plainCall (.exit 0))).toOption.map fun k =>
      (k.allProcesses, k.currentProcess)) (b := some ([0], none)) (by decide)
  obtain ⟨k, hs, hk⟩ := eq_ok_of_probe hprobe
  obtain ⟨hall, hcur⟩ := Prod.mk.inj hk
  exact ⟨s, k, hr, hs, hall, idle_only_if_none_ready hr hs hcur⟩

end Cyanurus
