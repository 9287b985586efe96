import Cyanurus.Proc.Process

/-!
# What closing and sharing files leaves alone

Releasing a file may end a pipe, and then wakes the processes that sleep on its other
side. Nothing else of a process changes but its own descriptors. `Kernel.Woken` and, for
operations that also fill or empty slots, `Kernel.Released` say so once, for every operation
on files that the process operations go through.
-/

namespace Cyanurus

/-- At most the process has been woken. -/
def Process.Woken (P P' : Process) : Prop :=
  ∃ state, (state = P.state ∨ state = .ready) ∧ P' = { P with state }

theorem Process.Woken.refl (P : Process) : P.Woken P := ⟨P.state, .inl rfl, rfl⟩

theorem Process.Woken.trans {P P' P'' : Process} (h : P.Woken P') (h' : P'.Woken P'') :
    P.Woken P'' := by
  obtain ⟨s, hs, rfl⟩ := h
  obtain ⟨s', hs', rfl⟩ := h'
  refine ⟨s', ?_, rfl⟩
  rcases hs' with rfl | rfl
  · exact hs
  · exact .inr rfl

/-- At most the descriptors have changed, and the process may have been woken. -/
def Process.Released (P P' : Process) : Prop :=
  ∃ state files closeOnExec, (state = P.state ∨ state = .ready)
    ∧ P' = { P with state, files, closeOnExec }

theorem Process.Released.refl (P : Process) : P.Released P :=
  ⟨P.state, P.files, P.closeOnExec, .inl rfl, rfl⟩

theorem Process.Released.trans {P P' P'' : Process} (h : P.Released P') (h' : P'.Released P'') :
    P.Released P'' := by
  obtain ⟨s, f, c, hs, rfl⟩ := h
  obtain ⟨s', f', c', hs', rfl⟩ := h'
  refine ⟨s', f', c', ?_, rfl⟩
  rcases hs' with rfl | rfl
  · exact hs
  · exact .inr rfl

theorem Process.Woken.released {P P' : Process} (h : P.Woken P') : P.Released P' := by
  obtain ⟨state, hs, rfl⟩ := h
  exact ⟨state, P.files, P.closeOnExec, hs, rfl⟩

namespace Kernel

/-- The lists of processes and the queue of waiting parents are the same. -/
structure SameLists (k k' : Kernel) : Prop where
  next : k'.processes.next = k.processes.next
  child : k'.waitqs .child = k.waitqs .child
  all : k'.allProcesses = k.allProcesses
  run : k'.runQueue = k.runQueue
  current : k'.currentProcess = k.currentProcess
  maxId : k'.maxId = k.maxId

/-- The same processes, some of them woken. -/
structure Woken (k k' : Kernel) : Prop extends SameLists k k' where
  rel : k.processes.Rel Process.Woken k'.processes

/-- The same processes, released. -/
structure Released (k k' : Kernel) : Prop extends SameLists k k' where
  rel : k.processes.Rel Process.Released k'.processes

variable {k k' k'' : Kernel}

theorem SameLists.trans (h : k.SameLists k') (h' : k'.SameLists k'') : k.SameLists k'' :=
  ⟨h'.next.trans h.next, h'.child.trans h.child, h'.all.trans h.all, h'.run.trans h.run,
    h'.current.trans h.current, h'.maxId.trans h.maxId⟩

theorem Woken.files (k : Kernel) (files : Store File) (pipes : Store Pipe) :
    k.Woken { k with files := files, pipes := pipes } :=
  ⟨⟨rfl, rfl, rfl, rfl, rfl, rfl⟩, .refl Process.Woken.refl k.processes⟩

theorem Woken.refl (k : Kernel) : k.Woken k := .files k k.files k.pipes

theorem Woken.trans (h : k.Woken k') (h' : k'.Woken k'') : k.Woken k'' :=
  ⟨h.toSameLists.trans h'.toSameLists, h.rel.trans Process.Woken.trans h'.rel⟩

theorem Woken.released (h : k.Woken k') : k.Released k' :=
  ⟨h.toSameLists, h.rel.mono Process.Woken.released⟩

theorem Released.refl (k : Kernel) : k.Released k := (Woken.refl k).released

theorem Released.trans (h : k.Released k') (h' : k'.Released k'') : k.Released k'' :=
  ⟨h.toSameLists.trans h'.toSameLists, h.rel.trans Process.Released.trans h'.rel⟩

/-- The slots of a process change. -/
theorem Released.update (k : Kernel) (p : Nat) {f : Process → Process}
    (hf : ∀ P, Process.Released P (f P)) : k.Released (k.update p f) :=
  ⟨⟨rfl, rfl, rfl, rfl, rfl, rfl⟩, .modify Process.Released.refl p hf⟩

/-! ## Waking -/

theorem processWake_rel (k : Kernel) (q : Waitq) :
    k.processes.Rel Process.Woken (k.processWake q).2.processes := by
  unfold processWake
  cases k.waitqs q with
  | nil => exact .refl Process.Woken.refl _
  | cons p rest => exact .modify Process.Woken.refl p fun P => ⟨.ready, .inr rfl, rfl⟩

theorem processWake_woken {q : Waitq} (hq : q ≠ .child) : k.Woken (k.processWake q).2 := by
  refine ⟨?_, processWake_rel k q⟩
  unfold processWake
  cases k.waitqs q with
  | nil => exact ⟨rfl, rfl, rfl, rfl, rfl, rfl⟩
  | cons p rest => exact ⟨rfl, Function.update_of_ne (Ne.symm hq) .., rfl, rfl, rfl, rfl⟩

/-! ## Closing

Whatever waking on a queue other than that of the waiting parents keeps, and changes of
files and pipes keep, is kept when a file is released. -/

section Closing

variable {Φ : Kernel → Prop}

theorem wakeAll_keeps {q : Waitq} (hq : q ≠ .child)
    (hwake : ∀ k q, q ≠ .child → Φ k → Φ (k.processWake q).2) :
    ∀ (n : Nat) (k : Kernel), Φ k → Φ (wakeAll q n k)
  | 0, _, h => h
  | n + 1, k, h => by
    have hw := hwake k q hq h
    unfold wakeAll
    cases h1 : k.processWake q with
    | mk woken k1 =>
      rw [h1] at hw
      cases woken with
      | true => exact wakeAll_keeps hq hwake n k1 hw
      | false => exact hw

variable (hwake : ∀ k q, q ≠ .child → Φ k → Φ (k.processWake q).2)

include hwake

section

variable (hpipes : ∀ k pipes, Φ k → Φ { k with pipes := pipes })

include hpipes

/-- One side of a pipe is closed, and the other woken if it was the last. -/
theorem pipeClose_keeps {q : Waitq} (hq : q ≠ .child) (k : Kernel) (pipes : Store Pipe)
    (last : Prop) [Decidable last] (n pipe readers writers : Nat) (h : Φ k) :
    Φ ((if last then wakeAll q n { k with pipes := pipes } else { k with pipes := pipes }).pipeDrop
      pipe readers writers) := by
  have hdrop : ∀ k, Φ k → Φ (k.pipeDrop pipe readers writers) := by
    intro k h
    unfold pipeDrop
    split
    · exact hpipes k _ h
    · exact h
  split
  · exact hdrop _ (wakeAll_keeps hq hwake n _ (hpipes k pipes h))
  · exact hdrop _ (hpipes k pipes h)

theorem pipeRelease_keeps {pipe flags : Nat} (h0 : Φ k) (h : k.pipeRelease pipe flags = .ok k') :
    Φ k' := by
  unfold pipeRelease at h
  cases hp : k.pipes.get pipe with
  | none =>
    rw [hp] at h
    cases h
  | some P =>
    rw [hp] at h
    simp only at h
    split at h
    · split at h
      · cases h
      · cases h
        exact pipeClose_keeps hwake hpipes (by simp) k _ _ _ _ _ _ h0
    split at h
    · split at h
      · cases h
      · cases h
        exact pipeClose_keeps hwake hpipes (by simp) k _ _ _ _ _ _ h0
    · cases h

end

variable (hfiles : ∀ k files pipes, Φ k → Φ { k with files := files, pipes := pipes })

include hfiles

theorem releaseFile_keeps {file : Nat} (h0 : Φ k) (h : k.releaseFile file = .ok k') : Φ k' := by
  unfold releaseFile at h
  cases hf : k.files.get file with
  | none =>
    rw [hf] at h
    cases h
  | some F =>
    rw [hf] at h
    simp only at h
    split at h
    · cases h
    have hcount := hfiles k (k.files.modify file fun F => { F with count := F.count - 1 }) k.pipes h0
    obtain ⟨k1, h1, h⟩ := bind_eq_ok h
    have hmid : Φ k1 := by
      cases ht : F.type with
      | pipe pipe =>
        rw [ht] at h1
        exact pipeRelease_keeps hwake (fun k pipes => hfiles k k.files pipes) hcount h1
      | unused | tty | inode =>
        rw [ht] at h1
        cases h1
        exact hcount
    split at h
    · cases h
      exact hfiles k1 _ k1.pipes hmid
    · cases h
      exact hmid

end Closing

theorem releaseFile_woken {file : Nat} (h : k.releaseFile file = .ok k') : k.Woken k' :=
  releaseFile_keeps (fun _ _ hq h => h.trans (processWake_woken hq))
    (fun k1 files pipes h => h.trans (.files k1 files pipes)) (.refl k) h

theorem releaseFiles_released : ∀ {is : List (Fin maxFdSize)} {k k' : Kernel} {p : Nat},
    k.releaseFiles p is = .ok k' → k.Released k'
  | [], k, _, _, h => by
    cases h
    exact .refl k
  | i :: is, k, _, p, h => by
    unfold releaseFiles at h
    split at h
    · exact releaseFiles_released h
    · obtain ⟨k1, h1, h⟩ := bind_eq_ok h
      have h0 : k.Released (k.update p fun P => { P with files := P.files.set i none }) :=
        .update k p fun P => ⟨P.state, P.files.set i none, P.closeOnExec, .inl rfl, rfl⟩
      exact (h0.trans (releaseFile_woken h1).released).trans (releaseFiles_released h)

/-! ## Sharing -/

/-- Sharing a file changes files and pipes only. -/
theorem countupFile_files {file : Nat} (h : k.countupFile file = .ok k') :
    ∃ files pipes, k' = { k with files := files, pipes := pipes } := by
  unfold countupFile at h
  split at h
  · cases h
  split at h
  · unfold pipeCountup at h
    split at h
    · cases h
      exact ⟨_, _, rfl⟩
    split at h
    · cases h
      exact ⟨_, _, rfl⟩
    · cases h
  · cases h
    exact ⟨_, _, rfl⟩

theorem countupFiles_files {files : List (Option Nat)} (h : k.countupFiles files = .ok k') :
    ∃ files pipes, k' = { k with files := files, pipes := pipes } := by
  induction files generalizing k with
  | nil =>
    cases h
    exact ⟨_, _, rfl⟩
  | cons file files ih =>
    obtain ⟨k1, h1, h2⟩ := bind_eq_ok h
    cases file with
    | none =>
      cases h1
      exact ih h2
    | some file =>
      obtain ⟨_, _, rfl⟩ := countupFile_files h1
      obtain ⟨_, _, rfl⟩ := ih h2
      exact ⟨_, _, rfl⟩

theorem countupFiles_woken {files : List (Option Nat)} (h : k.countupFiles files = .ok k') :
    k.Woken k' := by
  obtain ⟨_, _, rfl⟩ := countupFiles_files h
  exact .files k _ _

/-! ## Fork -/

section Fork

variable {p : Nat} {P : Process}

/-- The processes after a fork. -/
theorem forkProcess_get (hp : k.processes.get p = some P) (q : Nat) :
    (k.forkProcess p P).processes.get q =
      if q = k.processes.next then some (forkChild p P (newProcess k.maxId))
      else if q = p then some { P with children := k.processes.next :: P.children }
      else k.processes.get q := by
  have hne : k.processes.next ≠ p := Nat.ne_of_gt (Store.lt_next hp)
  unfold forkProcess update processAlloc
  by_cases hqc : q = k.processes.next
  · rw [if_pos hqc, hqc, Store.modify_self, Store.modify_ne hne, Store.alloc_self]
    rfl
  · rw [if_neg hqc, Store.modify_ne hqc]
    by_cases hqp : q = p
    · rw [if_pos hqp, hqp, Store.modify_self, Store.alloc_of_some hp]
      rfl
    · rw [if_neg hqp, Store.modify_ne hqp, Store.alloc_ne hqc]

/-- A process after a fork: the child, the parent, or another. -/
theorem forkProcess_cases (hp : k.processes.get p = some P) {q : Nat} {Q : Process}
    (hq : (k.forkProcess p P).processes.get q = some Q) :
    (q = k.processes.next ∧ Q = forkChild p P (newProcess k.maxId))
      ∨ (q = p ∧ Q = { P with children := k.processes.next :: P.children })
      ∨ k.processes.get q = some Q := by
  rw [forkProcess_get hp] at hq
  split at hq
  · exact .inl ⟨‹_›, (Option.some.inj hq).symm⟩
  split at hq
  · exact .inr (.inl ⟨‹_›, (Option.some.inj hq).symm⟩)
  · exact .inr (.inr hq)

theorem processFork_ok {r : Nat} (h : k.processFork p = .ok (r, k')) : ∃ P,
    k.processes.get p = some P ∧ (k.forkProcess p P).countupFiles P.files.toList = .ok k' := by
  unfold processFork at h
  split at h
  · cases h
  · rename_i P hp
    obtain ⟨k1, hcount, h⟩ := bind_eq_ok h
    cases h
    exact ⟨P, hp, hcount⟩

end Fork

/-- A round of `process_wait` puts the caller to sleep, or destroys a dead child. -/
theorem processWaitLoop_ok {p : Nat} {r : Option Waited} (h : k.processWaitLoop p = .ok (r, k')) :
    ∃ P, k.processes.get p = some P
      ∧ (P.children.find? k.isDead = none ∧ r = none ∧ k' = k.processSleep p .child .wait
        ∨ ∃ c C, P.children.find? k.isDead = some c ∧ k.processes.get c = some C
          ∧ k.processDestroy p c = .ok k' ∧ r = some ⟨C.id, some C.exitStatus⟩) := by
  unfold processWaitLoop at h
  split at h
  · cases h
  rename_i P hp
  refine ⟨P, hp, ?_⟩
  split at h
  · rename_i hfind
    cases h
    exact .inl ⟨hfind, rfl, rfl⟩
  rename_i c hfind
  split at h
  · cases h
  rename_i C hc
  obtain ⟨k1, hd, h⟩ := bind_eq_ok h
  cases h
  exact .inr ⟨c, C, hfind, hc, hd, rfl⟩

theorem processWait_ok {p : Nat} {r : Option Waited} (h : k.processWait p = .ok (r, k')) :
    r = some ⟨echild, none⟩ ∧ k' = k ∨ k.processWaitLoop p = .ok (r, k') := by
  unfold processWait at h
  split at h
  · cases h
  split at h
  · cases h
    exact .inl ⟨rfl, rfl⟩
  · exact .inr h

end Kernel

end Cyanurus
