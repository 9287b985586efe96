import Cyanurus.Lib.Run
import Cyanurus.Proc.Descriptors

/-!
# Runs of calls on descriptors

Any process that is ready may make the next call. **`descriptor_accounting`**: in every run
the counts of files and pipes are those of the slots, and no call halts the kernel.
-/

namespace Cyanurus

open Lts Kernel

/-! ## Runs -/

/-- What becomes of the program and its arguments before `process_exec` changes anything. -/
inductive Program where
  | tooBig
  | refused
  | loaded (sp pc : Nat)

inductive FileCall where
  | fork
  | exec (program : Program)
  | exit (status : Int)
  | openFile (flags : Nat) (created : Int) (found : Option (Nat × Bool))
  | close (fd : Int)
  | dupfd (fd start : Int) (flags : Nat)
  | dup2 (oldfd newfd : Int)
  | dup3 (oldfd newfd : Int) (flags : Nat)
  | pipe2 (flags : Nat)
  | fcntl64 (fd cmd : Int) (arg : Nat)

inductive FileAct where
  | create (sp pc : Nat)
  | call (p : Nat) (c : FileCall)

/-- What a call returns, and what `pipe2` stores. -/
structure Reply where
  ret : Int
  fds : Option (Fin maxFdSize × Fin maxFdSize)

namespace Kernel

/-- A call that returns a number only. -/
def plain (r : Except Halt (Int × Kernel)) : Except Halt (Reply × Kernel) :=
  r.map fun (r, k) => (⟨r, none⟩, k)

def fileCall (k : Kernel) (p : Nat) : FileCall → Except Halt (Reply × Kernel)
  | .fork => plain ((k.processFork p).map fun (r, k) => ((r : Int), k))
  | .exec .tooBig => .ok (⟨e2big, none⟩, k)
  | .exec .refused => .ok (⟨eacces, none⟩, k)
  | .exec (.loaded sp pc) => plain ((k.startProgram p sp pc).map fun k => (0, k))
  | .exit status => plain ((k.processExit p status).map fun k => (0, k))
  | .openFile flags created found => plain (k.processOpen p flags created found)
  | .close fd => plain (k.processClose p fd)
  | .dupfd fd start flags => plain (k.processDupfd p fd start flags)
  | .dup2 oldfd newfd => plain (k.processDup2 p oldfd newfd)
  | .dup3 oldfd newfd flags => plain (k.processDup3 p oldfd newfd flags)
  | .pipe2 flags => (k.processPipe2 p flags).map fun (r, fds, k) => (⟨r, fds⟩, k)
  | .fcntl64 fd cmd arg => plain (k.processFcntl64 p fd cmd arg)

def fileStep (k : Kernel) : FileAct → Except Halt Kernel
  | .create sp pc => .ok (k.processCreate sp pc)
  | .call p c => if k.isReady p then (k.fileCall p c).map Prod.snd else .error .unknown

/-! ## What a call does to its caller -/

/-- The table of the caller after a call other than `fork`. -/
inductive Effect (P : Process) : FileCall → Reply → Process → Prop
  | failed {c : FileCall} {r : Int} : r < 0 → Effect P c ⟨r, none⟩ P
  | exec {sp pc : Nat} {P' : Process} : (∀ j, P.closeOnExec.get j = true → P'.files.get j = none) →
      Effect P (.exec (.loaded sp pc)) ⟨0, none⟩ P'
  | exit {status : Int} {P' : Process} : P'.state = .dead → Effect P (.exit status) ⟨0, none⟩ P'
  | openFile {flags : Nat} {created : Int} {found : Option (Nat × Bool)} {i : Fin maxFdSize} {f : Nat} :
      Effect P (.openFile flags created found) ⟨i, none⟩
        (withSlot P i (some f) (decide (flags &&& oCloexec ≠ 0)))
  | close {i : Fin maxFdSize} : Effect P (.close i) ⟨0, none⟩ (withSlot P i none false)
  | dupfd {fd start : Int} {flags : Nat} {i : Fin maxFdSize} {f : Nat} :
      Effect P (.dupfd fd start flags) ⟨i, none⟩
        (withSlot P i (some f) (decide (flags &&& oCloexec ≠ 0)))
  | dup2Same {fd : Int} : Effect P (.dup2 fd fd) ⟨fd, none⟩ P
  | dup2 {oldfd : Int} {i : Fin maxFdSize} {f : Nat} : oldfd ≠ i →
      Effect P (.dup2 oldfd i) ⟨i, none⟩ (withSlot P i (some f) false)
  | dup3 {oldfd : Int} {flags : Nat} {i : Fin maxFdSize} {f : Nat} :
      Effect P (.dup3 oldfd i flags) ⟨i, none⟩
        (withSlot P i (some f) (decide (flags &&& oCloexec ≠ 0)))
  | pipe2 {flags : Nat} {i j : Fin maxFdSize} {f g : Nat} : i ≠ j →
      Effect P (.pipe2 flags) ⟨0, some (i, j)⟩
        (withSlot (withSlot P i (some f) (decide (flags &&& oCloexec ≠ 0))) j (some g)
          (decide (flags &&& oCloexec ≠ 0)))
  | dupByFcntl {fd : Int} {arg : Nat} {i : Fin maxFdSize} {f : Nat} :
      Effect P (.fcntl64 fd 0 arg) ⟨i, none⟩ (withSlot P i (some f) false)
  | setfd {i : Fin maxFdSize} {arg : Nat} :
      Effect P (.fcntl64 i 2 arg) ⟨0, none⟩ (withMark P i (decide (arg &&& fdCloexec ≠ 0)))
  | fcntl {fd cmd r : Int} {arg : Nat} : cmd ≠ 0 → cmd ≠ 2 →
      Effect P (.fcntl64 fd cmd arg) ⟨r, none⟩ P

variable {k k' : Kernel} {p : Nat} {P : Process}

/-- **Every call succeeds**, in the sense that it does not halt the kernel, and its effect is
on its caller's table alone. -/
theorem Runs.call (h : Runs k p P) (hd : P.state ≠ .dead) {c : FileCall} (hc : c ≠ .fork) :
    ∃ r k' P', k.fileCall p c = .ok (r, k') ∧ Runs k' p P' ∧ Others p k k' ∧ Effect P c r P' := by
  cases c with
  | fork => exact absurd rfl hc
  | exec program =>
    cases program with
    | tooBig => exact ⟨_, k, P, rfl, h, .refl p k, .failed (by decide)⟩
    | refused => exact ⟨_, k, P, rfl, h, .refl p k, .failed (by decide)⟩
    | loaded sp pc =>
      obtain ⟨k', P', hk', hruns, ho, _, hmarked⟩ := h.startProgram sp pc
      exact ⟨_, k', P', by rw [fileCall, hk']; rfl, hruns, ho, .exec hmarked⟩
  | exit status =>
    obtain ⟨k', P', hk', hruns, ho, hdead⟩ := h.processExit status
    exact ⟨_, k', P', by rw [fileCall, hk']; rfl, hruns, ho, .exit hdead⟩
  | openFile flags created found =>
    obtain ⟨r, k', P', hk', hruns, ho, hfill⟩ := h.processOpen hd flags created found
    refine ⟨_, k', P', by rw [fileCall, hk']; rfl, hruns, ho, ?_⟩
    cases hfill with
    | failed hr => exact .failed hr
    | filled => exact .openFile
  | close fd =>
    obtain ⟨r, k', P', hk', hruns, ho, hclose⟩ := h.processClose_any fd
    refine ⟨_, k', P', by rw [fileCall, hk']; rfl, hruns, ho, ?_⟩
    rcases hclose with ⟨hr, rfl⟩ | ⟨i, rfl, rfl, rfl⟩
    · exact .failed hr
    · exact .close
  | dupfd fd start flags =>
    obtain ⟨r, k', P', hk', hruns, ho, hfill⟩ := h.processDupfd hd fd start flags
    refine ⟨_, k', P', by rw [fileCall, hk']; rfl, hruns, ho, ?_⟩
    cases hfill with
    | failed hr => exact .failed hr
    | filled => exact .dupfd
  | dup2 oldfd newfd =>
    obtain ⟨r, k', P', hk', hruns, ho, hdup⟩ := h.processDup2 hd oldfd newfd
    refine ⟨_, k', P', by rw [fileCall, hk']; rfl, hruns, ho, ?_⟩
    rcases hdup with ⟨hr, rfl⟩ | ⟨rfl, rfl, rfl⟩ | ⟨i, f, hne, rfl, rfl, rfl⟩
    · exact .failed hr
    · exact .dup2Same
    · exact .dup2 hne
  | dup3 oldfd newfd flags =>
    obtain ⟨r, k', P', hk', hruns, ho, hdup⟩ := h.processDup3 hd oldfd newfd flags
    refine ⟨_, k', P', by rw [fileCall, hk']; rfl, hruns, ho, ?_⟩
    rcases hdup with ⟨hr, rfl⟩ | ⟨i, f, rfl, rfl, rfl⟩
    · exact .failed hr
    · exact .dup3
  | pipe2 flags =>
    obtain ⟨r, fds, k', P', hk', hruns, ho, hpipe⟩ := h.processPipe2 hd flags
    refine ⟨_, k', P', by rw [fileCall, hk']; rfl, hruns, ho, ?_⟩
    cases hpipe with
    | failed hr => exact .failed hr
    | piped hij => exact .pipe2 hij
  | fcntl64 fd cmd arg =>
    obtain ⟨r, k', P', hk', hruns, ho, hctl⟩ := h.processFcntl64 hd fd cmd arg
    refine ⟨_, k', P', by rw [fileCall, hk']; rfl, hruns, ho, ?_⟩
    cases hctl with
    | failed hr => exact .failed hr
    | dup hcmd =>
      subst hcmd
      exact .dupByFcntl
    | marked hcmd hi =>
      subst hcmd hi
      exact .setfd
    | other h0 h2 => exact .fcntl h0 h2

theorem fileCall_inv (h : k.FileInv) (hp : k.isReady p = true) (c : FileCall) :
    ∃ r k', k.fileCall p c = .ok (r, k') ∧ k'.FileInv := by
  obtain ⟨P, hP, hs⟩ := isReady_iff.mp hp
  have hruns : Runs k p P := ⟨h, hP, by rw [hs]; simp⟩
  by_cases hc : c = .fork
  · subst hc
    obtain ⟨r, k', hk', hinv, _⟩ := hruns.processFork
    exact ⟨_, k', by rw [fileCall, hk']; rfl, hinv⟩
  · obtain ⟨r, k', _, hk', hruns', _⟩ := hruns.call (by rw [hs]; simp) hc
    exact ⟨r, k', hk', hruns'.inv⟩

theorem fileStep_inv (h : k.FileInv) {a : FileAct} (hs : k.fileStep a = .ok k') : k'.FileInv := by
  cases a with
  | create sp pc =>
    cases hs
    exact processCreate_inv h sp pc
  | call p c =>
    simp only [fileStep] at hs
    split at hs
    · rename_i hp
      obtain ⟨r, k1, hk1, hinv⟩ := fileCall_inv h hp c
      rw [hk1] at hs
      cases hs
      exact hinv
    · cases hs

theorem empty_inv : Kernel.empty.FileInv :=
  ⟨by rw [Kernel.slots, show empty.processes = .empty from rfl, Store.tally_empty]; exact .empty,
    empty_queued, fun _ _ _ h => absurd h (by simp [Kernel.empty]),
    fun _ h => absurd h (by simp [Kernel.empty, Store.empty])⟩

/-! ## The accounts -/

/-- What the counts of the kernel have to say. -/
structure Accounts (k : Kernel) : Prop where
  /-- A file counts the slots that name it. -/
  count : ∀ {f F}, k.files.get f = some F → F.count = k.slots.count f
  /-- A file is there as long as a slot names it. -/
  live : ∀ f, (k.files.get f).isSome ↔ 0 < k.slots.count f
  readers : ∀ {q Q}, k.pipes.get q = some Q →
    Q.readers = k.slots.countP (endOf k.files q .reading ·)
  writers : ∀ {q Q}, k.pipes.get q = some Q →
    Q.writers = k.slots.countP (endOf k.files q .writing ·)
  /-- Only slots in use are marked, in a process that has not exited. -/
  marks : ∀ {p P} i, k.processes.get p = some P → P.state ≠ .dead → P.files.get i = none →
    P.closeOnExec.get i = false

theorem FileInv.accounts (h : k.FileInv) : k.Accounts := by
  refine ⟨fun hf => (h.counts.count hf).1, fun f => ?_, fun hq => h.counts.ends hq .reading,
    fun hq => h.counts.ends hq .writing, h.marks⟩
  rw [Multiset.count_pos, Option.isSome_iff_exists]
  constructor
  · rintro ⟨F, hF⟩
    exact h.counts.mem hF
  · exact h.counts.live

end Kernel

/-- **Descriptor accounting.** In every run of calls on descriptors by any processes, failing
calls included, the accounts are in order, and no call of a process that may run halts the
kernel. -/
theorem descriptor_accounting {as : List FileAct} {k : Kernel}
    (hr : Run (fun k a k' => k.fileStep a = .ok k') .empty as k) :
    k.Accounts ∧ ∀ p c, k.isReady p = true → ∃ r k', k.fileCall p c = .ok (r, k') := by
  have hinv : k.FileInv := hr.invariant empty_inv fun _ _ _ h hs => fileStep_inv h hs
  refine ⟨hinv.accounts, fun p c hp => ?_⟩
  obtain ⟨r, k', hk', _⟩ := fileCall_inv hinv hp c
  exact ⟨r, k', hk'⟩

/-- A process makes a pipe and forks, and its child puts the writing end in place of its
standard output. -/
def pipeline : List FileAct :=
  [.create 0 0, .call 0 (.pipe2 0), .call 0 .fork, .call 1 (.dup2 4 1), .call 1 (.close 4)]

theorem descriptor_accounting_pipeline : ∃ k : Kernel,
    Run (fun k a k' => k.fileStep a = .ok k') .empty pipeline k
      ∧ (k.pipes.get 0).map (fun Q => (Q.readers, Q.writers)) = some (2, 2) ∧ k.Accounts := by
  have hrun : (pipeline.foldlM fileStep .empty).toOption.bind
      (fun k => (k.pipes.get 0).map fun Q => (Q.readers, Q.writers)) = some (2, 2) := by
    decide
  cases hk : pipeline.foldlM fileStep .empty with
  | error e =>
    rw [hk] at hrun
    exact absurd hrun (by simp [Except.toOption])
  | ok k =>
    rw [hk] at hrun
    exact ⟨k, .of_foldlM hk, hrun, (descriptor_accounting (.of_foldlM hk)).1⟩

end Cyanurus
