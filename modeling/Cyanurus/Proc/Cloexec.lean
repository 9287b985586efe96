import Cyanurus.Proc.FileRun

/-!
# Marks for exec

A descriptor that is marked close-on-exec is closed when its process starts a program, and
so it should be in a child that got it by a fork. The marks are kept beside the table, and
`process_fork` copies the table alone.

`Tracked` follows the marks as the calls ask for them, from their arguments and results.
**`cloexec_kept`**: in runs in which a process that forks has no descriptor marked, a program
never starts with a marked descriptor open.
-/

namespace Cyanurus

open Lts Kernel

/-! ## Following the marks -/

/-- A kernel, and the descriptors of each process that have been marked and since then neither
cleared, closed nor replaced, by the process or by those it was forked from. -/
structure Tracked where
  kernel : Kernel
  marks : Nat → Fin maxFdSize → Bool

/-- The marks when descriptor `fd` gets the mark `m`. -/
def remark (marks : Fin maxFdSize → Bool) (fd : Int) (m : Bool) : Fin maxFdSize → Bool :=
  fun i => if (i : Int) = fd then m else marks i

/-- The marks of the caller after a call that returned `r`. -/
def track (marks : Fin maxFdSize → Bool) (r : Reply) : FileCall → Fin maxFdSize → Bool
  | .openFile flags _ _ | .dupfd _ _ flags | .dup3 _ _ flags =>
    if r.ret < 0 then marks else remark marks r.ret (decide (flags &&& oCloexec ≠ 0))
  | .close fd => if r.ret < 0 then marks else remark marks fd false
  | .dup2 oldfd newfd => if r.ret < 0 ∨ oldfd = newfd then marks else remark marks newfd false
  | .pipe2 flags =>
    match r.fds with
    | none => marks
    | some (i, j) => remark (remark marks i (decide (flags &&& oCloexec ≠ 0))) j
        (decide (flags &&& oCloexec ≠ 0))
  | .fcntl64 fd cmd arg =>
    if r.ret < 0 then marks
    else if cmd = 0 then remark marks r.ret false
    else if cmd = 2 then remark marks fd (decide (arg &&& fdCloexec ≠ 0))
    else marks
  | .exec _ => if r.ret < 0 then marks else fun _ => false
  | .fork | .exit _ => marks

namespace Tracked

/-- The marks after a call of `p`; a child has those of its parent. -/
def afterCall (t : Tracked) (p : Nat) (c : FileCall) (r : Reply) : Nat → Fin maxFdSize → Bool :=
  match c with
  | .fork => Function.update t.marks t.kernel.processes.next (t.marks p)
  | c => Function.update t.marks p (track (t.marks p) r c)

def step (t : Tracked) : FileAct → Except Halt Tracked
  | .create sp pc => .ok ⟨t.kernel.processCreate sp pc,
      Function.update t.marks t.kernel.processes.next fun _ => false⟩
  | .call p c =>
    if t.kernel.isReady p then
      (t.kernel.fileCall p c).map fun (r, k) => ⟨k, t.afterCall p c r⟩
    else .error .unknown

def empty : Tracked := ⟨.empty, fun _ _ => false⟩

/-- An exec that returns 0 leaves the slots that are marked empty. -/
def ClosesMarked (t : Tracked) : Prop :=
  ∀ p program r k', t.kernel.isReady p = true →
    t.kernel.fileCall p (.exec program) = .ok (r, k') → r.ret = 0 →
    ∀ i, t.marks p i = true → k'.slot p i = none

/-- What a step asks of the state it starts from: a process that forks has no descriptor
marked close-on-exec. -/
def ForkOk (t : Tracked) : FileAct → Prop
  | .call p .fork => ∀ P ∈ t.kernel.processes.get p, ∀ i, P.closeOnExec.get i = false
  | _ => True

instance (t : Tracked) : (a : FileAct) → Decidable (t.ForkOk a)
  | .call p .fork =>
    inferInstanceAs (Decidable (∀ P ∈ t.kernel.processes.get p, ∀ i, P.closeOnExec.get i = false))
  | .create _ _ | .call _ (.exec _) | .call _ (.exit _) | .call _ (.openFile ..)
  | .call _ (.close _) | .call _ (.dupfd ..) | .call _ (.dup2 ..) | .call _ (.dup3 ..)
  | .call _ (.pipe2 _) | .call _ (.fcntl64 ..) => inferInstanceAs (Decidable True)

/-! ## The invariant -/

/-- The marks that are followed are among those in the bitset. -/
def Marked (marks : Fin maxFdSize → Bool) (P : Process) : Prop :=
  ∀ i, marks i = true → P.closeOnExec.get i = true

structure Inv (t : Tracked) : Prop where
  files : t.kernel.FileInv
  marked : ∀ p P, t.kernel.processes.get p = some P → P.state ≠ .dead → Marked (t.marks p) P

variable {t t' : Tracked} {p : Nat} {P P' : Process} {marks : Fin maxFdSize → Bool}

theorem Marked.withSlot (h : Marked marks P) (i : Fin maxFdSize) (file : Option Nat) (m : Bool) :
    Marked (remark marks i m) (withSlot P i file m) := by
  intro j hj
  unfold remark at hj
  by_cases hji : j = i
  · subst hji
    rw [if_pos rfl] at hj
    rw [← hj]
    exact Vector.get_set_eq ..
  · have hne : (j : Int) ≠ (i : Int) := by omega
    rw [if_neg hne] at hj
    exact (Vector.get_set_ne _ _ hji).trans (h j hj)

theorem Marked.withMark (h : Marked marks P) (i : Fin maxFdSize) (m : Bool) :
    Marked (remark marks i m) (withMark P i m) := h.withSlot i none m

/-- **The step lemma for a call other than fork.** -/
theorem Marked.call (h : Marked marks P) {c : FileCall} {r : Reply} (he : Effect P c r P')
    (hd : P'.state ≠ .dead) : Marked (track marks r c) P' := by
  have hpos : ∀ i : Fin maxFdSize, ¬ ((i : Int) < 0) := fun i => by omega
  cases he with
  | failed hr =>
    cases c with
    | openFile | dupfd | dup3 | close | exec | fcntl64 => simpa only [track, if_pos hr] using h
    | dup2 => simpa only [track, if_pos (Or.inl hr)] using h
    | pipe2 | fork | exit => exact h
  | exec =>
    intro i hi
    exact absurd hi (by simp [track])
  | exit hdead => exact absurd hdead hd
  | openFile => simpa only [track, if_neg (hpos _)] using h.withSlot _ _ _
  | dupfd => simpa only [track, if_neg (hpos _)] using h.withSlot _ _ _
  | dup3 => simpa only [track, if_neg (hpos _)] using h.withSlot _ _ _
  | close => exact h.withSlot _ _ _
  | dup2Same => simpa [track] using h
  | @dup2 oldfd i f hne =>
    have hno : ¬ ((i : Int) < 0 ∨ oldfd = i) := fun h => h.elim (hpos i) hne
    simpa only [track, if_neg hno] using h.withSlot _ _ _
  | pipe2 => exact (h.withSlot _ _ _).withSlot _ _ _
  | dupByFcntl => simpa only [track, if_neg (hpos _), if_true] using h.withSlot _ _ _
  | setfd => exact h.withMark _ _
  | fcntl h0 h2 =>
    simp only [track]
    split <;> exact h

/-- Other processes keep their marks. -/
theorem Marked.roused (h : P.state ≠ .dead → Marked marks P) (hr : P.Roused P')
    (hd : P'.state ≠ .dead) : Marked marks P' := by
  rcases hr with rfl | ⟨hb, rfl⟩
  · exact h hd
  · exact h (by rw [hb]; simp)

theorem step_inv (hi : t.Inv) {a : FileAct} (hok : t.ForkOk a) (h : t.step a = .ok t') : t'.Inv := by
  cases a with
  | create sp pc =>
    cases h
    refine ⟨processCreate_inv hi.files sp pc, fun q Q hQ hd => ?_⟩
    show Marked (Function.update t.marks t.kernel.processes.next (fun _ => false) q) Q
    by_cases hq : q = t.kernel.processes.next
    · intro i hm
      rw [hq, Function.update_self] at hm
      cases hm
    · rw [Function.update_of_ne hq]
      rw [processCreate_processes, Store.modify_ne hq, Store.alloc_ne hq] at hQ
      exact hi.marked q Q hQ hd
  | call p c =>
    simp only [step] at h
    split at h
    swap
    · cases h
    rename_i hready
    obtain ⟨P, hP, hs⟩ := isReady_iff.mp hready
    have hruns : Runs t.kernel p P := ⟨hi.files, hP, by rw [hs]; simp⟩
    by_cases hc : c = .fork
    · subst hc
      obtain ⟨r, k', hk', hinv, hprocs, _⟩ := hruns.processFork
      rw [fileCall, hk'] at h
      cases h
      refine ⟨hinv, fun q Q hQ hd => ?_⟩
      rw [hprocs] at hQ
      -- nothing was marked, so neither parent nor child has a mark to lose
      have hnone : ∀ i, t.marks p i = false := by
        intro i
        have hm := hi.marked p P hP (by rw [hs]; simp) i
        rw [hok P hP i] at hm
        simpa using hm
      have hmarks : ∀ q ≠ t.kernel.processes.next,
          Function.update t.marks t.kernel.processes.next (t.marks p) q = t.marks q :=
        fun q hq => Function.update_of_ne hq ..
      show Marked (Function.update t.marks t.kernel.processes.next (t.marks p) q) Q
      rcases forkProcess_cases hP hQ with ⟨rfl, _⟩ | ⟨rfl, rfl⟩ | hQ
      · intro i hm
        rw [Function.update_self, hnone i] at hm
        cases hm
      · rw [hmarks q (Nat.ne_of_lt (Store.lt_next hP))]
        exact hi.marked q P hP hd
      · rw [hmarks q (Nat.ne_of_lt (Store.lt_next hQ))]
        exact hi.marked q Q hQ hd
    · obtain ⟨r, k', P', hk', hruns', ho, heff⟩ := hruns.call (by rw [hs]; simp) hc
      rw [hk'] at h
      cases h
      refine ⟨hruns'.inv, fun q Q hQ hd => ?_⟩
      show Marked (t.afterCall p c r q) Q
      have hafter : t.afterCall p c r = Function.update t.marks p (track (t.marks p) r c) := by
        cases c with
        | fork => exact absurd rfl hc
        | _ => rfl
      rw [hafter]
      by_cases hq : q = p
      · subst hq
        rw [hruns'.get] at hQ
        cases hQ
        rw [Function.update_self]
        exact (hi.marked q P hP (by rw [hs]; simp)).call heff hd
      · rw [Function.update_of_ne hq]
        obtain ⟨Q₀, hQ₀, hrel⟩ := ho.back hq hQ
        exact Marked.roused (hi.marked q Q₀ hQ₀) hrel hd

theorem Inv.closesMarked (hi : t.Inv) : t.ClosesMarked := by
  intro p program r k' hready h hr i hm
  obtain ⟨P, hP, hs⟩ := isReady_iff.mp hready
  have hd : P.state ≠ .dead := by rw [hs]; simp
  have hruns : Runs t.kernel p P := ⟨hi.files, hP, by rw [hs]; simp⟩
  cases program with
  | tooBig =>
    cases h
    cases hr
  | refused =>
    cases h
    cases hr
  | loaded sp pc =>
    obtain ⟨k1, P', hk1, hruns', _, _, hmarked⟩ := hruns.startProgram sp pc
    rw [fileCall, hk1] at h
    cases h
    rw [slot_eq hruns'.get]
    exact hmarked i (hi.marked p P hP hd i hm)

theorem empty_inv : empty.Inv :=
  ⟨Kernel.empty_inv, fun _ _ h => absurd h (by simp [empty, Kernel.empty, Store.empty])⟩

end Tracked

/-- **Marked descriptors are closed by exec**, in every run in which no process forks with a
descriptor marked. -/
theorem cloexec_kept {as : List FileAct} {t : Tracked}
    (hr : Run (Guarded Tracked.ForkOk fun t a t' => t.step a = .ok t') .empty as t) :
    t.ClosesMarked :=
  (hr.invariant Tracked.empty_inv fun _ _ _ hi h => Tracked.step_inv hi h.1 h.2).closesMarked

/-- The first descriptor behind those of the terminal. -/
def fd3 : Fin maxFdSize := ⟨3, by decide⟩

/-- Opens a file that is closed by exec. -/
def openMarked : FileCall := .openFile oCloexec 0 (some (0, false))

/-- The first process forks, and its child opens a file with a mark. -/
theorem cloexec_kept_child : ∃ t,
    Run (Guarded Tracked.ForkOk fun t a t' => t.step a = .ok t') .empty
      [.create 0 0, .call 0 .fork, .call 1 openMarked] t
    ∧ t.marks 1 fd3 = true ∧ t.ClosesMarked := by
  have hrun : ([.create 0 0, .call 0 .fork, .call 1 openMarked].foldlM (fun t a =>
      if Tracked.ForkOk t a then t.step a else .error .unknown) Tracked.empty).toOption.map
      (fun t => t.marks 1 fd3) = some true := by decide
  cases hk : [.create 0 0, .call 0 .fork, .call 1 openMarked].foldlM (fun t a =>
      if Tracked.ForkOk t a then t.step a else .error .unknown) Tracked.empty with
  | error e =>
    rw [hk] at hrun
    exact absurd hrun (by simp [Except.toOption])
  | ok t =>
    rw [hk] at hrun
    exact ⟨t, .of_checked hk, Option.some.inj hrun, cloexec_kept (.of_checked hk)⟩

/-- A process opens a file with a mark and forks. Its child starts a program with the file
open. -/
theorem cloexec_lost : ¬ ∀ (as : List FileAct) (t : Tracked),
    Run (fun t a t' => t.step a = .ok t') .empty as t → t.ClosesMarked := by
  intro h
  have hrun : ([.create 0 0, .call 0 openMarked, .call 0 .fork].foldlM Tracked.step
      Tracked.empty).toOption.bind (fun t =>
        (t.kernel.fileCall 1 (.exec (.loaded 0 0))).toOption.map fun (r, k) =>
          (t.kernel.isReady 1, t.marks 1 fd3, r.ret, k.slot 1 fd3)) = some (true, true, 0, some 1) := by
    decide
  cases hk : [.create 0 0, .call 0 openMarked, .call 0 .fork].foldlM Tracked.step Tracked.empty with
  | error e =>
    rw [hk] at hrun
    exact absurd hrun (by simp [Except.toOption])
  | ok t =>
    rw [hk] at hrun
    simp only [Except.toOption, Option.bind_some] at hrun
    cases he : t.kernel.fileCall 1 (.exec (.loaded 0 0)) with
    | error e =>
      rw [he] at hrun
      cases hrun
    | ok rk =>
      rw [he] at hrun
      obtain ⟨hready, hmark, hret, hslot⟩ : t.kernel.isReady 1 = true ∧ t.marks 1 fd3 = true
          ∧ rk.1.ret = 0 ∧ rk.2.slot 1 fd3 = some 1 := by simpa using hrun
      have hclosed := h _ t (.of_foldlM hk) 1 (.loaded 0 0) rk.1 rk.2 hready he hret fd3 hmark
      rw [hslot] at hclosed
      cases hclosed

end Cyanurus
