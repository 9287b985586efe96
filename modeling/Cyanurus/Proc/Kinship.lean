import Cyanurus.Lib.ParentTree
import Cyanurus.Proc.Descriptors
import Cyanurus.Proc.Scheduler

/-!
# The process tree

The processes with their `parent` and `children` are a tree whose root is the process that
`process_create` made: a fork adds a leaf, and destroying a process hands its children to
the root (`processDestroy_kin`). Exits, waking and sleeping leave the tree alone.

Processes fork, exit and wait in any order; a process that waits sleeps until an exit wakes
it, and goes on with the loop of `process_wait`. Beside the kernel there is a record of the
exits and of what `process_wait` returned, last one first. It is orderly: what a wait
returns has exited before, with that status, and has not been returned by another wait. The
reason is that a dead process stays dead until it is destroyed, since nobody who could be
woken is dead (`Kernel.Queued`), and that a destroyed process is gone for good.
-/

namespace Cyanurus

open Lts ParentTree

/-! ## Runs -/

/-- What is recorded of a run. -/
inductive Event where
  /-- The process with this number exits. -/
  | exit (pid : Nat) (status : Int)
  /-- `process_wait` returns `pid` to `waiter` and stores `status`; `parent` is the parent of
  that process at this moment. -/
  | reap (waiter : Nat) (pid : Int) (status : Option Int) (parent : Option Nat)
deriving DecidableEq

structure History where
  kernel : Kernel
  events : List Event

inductive FamilyAct where
  | fork (p : Nat)
  | exit (p : Nat) (status : Int)
  | wait (p : Nat)
  /-- A process that was woken goes on in `process_wait`. -/
  | resume (p : Nat)

namespace Kernel

/-- The process runs in user mode, so it may make a call. -/
def mayCall (k : Kernel) (p : Nat) : Bool :=
  (k.processes.get p).any fun P => P.state == .ready && P.suspend == none

/-- The process has been woken in `process_wait`. -/
def mayResume (k : Kernel) (p : Nat) : Bool :=
  (k.processes.get p).any fun P => P.state == .ready && P.suspend == some .wait

/-- The parent of the process with a number. -/
def parentOf (k : Kernel) (pid : Int) : Option Nat :=
  (k.findProcess pid).bind fun c => (k.processes.get c).map Process.parent

def pidOf (k : Kernel) (p : Nat) : Nat := ((k.processes.get p).map Process.id).getD 0

end Kernel

namespace History

/-- A call of `process_wait` by `p` has led to `k`, with the result `r` if it has returned. -/
def waited (s : History) (p : Nat) (r : Option Kernel.Waited) (k : Kernel) : History :=
  match r with
  | some ⟨pid, status⟩ =>
    if 0 < pid then ⟨k, .reap p pid status (s.kernel.parentOf pid) :: s.events⟩
    else ⟨k, s.events⟩
  | none => ⟨k, s.events⟩

def step (s : History) : FamilyAct → Except Halt History
  | .fork p =>
    if s.kernel.mayCall p then do
      let (_, k) ← s.kernel.processFork p
      .ok ⟨k, s.events⟩
    else .error .unknown
  | .exit p status =>
    if s.kernel.mayCall p then do
      let k ← s.kernel.processExit p status
      .ok ⟨k, .exit (s.kernel.pidOf p) status :: s.events⟩
    else .error .unknown
  | .wait p =>
    if s.kernel.mayCall p then do
      let (r, k) ← s.kernel.processWait p
      .ok (s.waited p r k)
    else .error .unknown
  | .resume p =>
    if s.kernel.mayResume p then do
      -- `process_dispatch` has taken the context of the suspended call
      let s := { s with kernel := s.kernel.update p fun P => { P with suspend := none } }
      let (r, k) ← s.kernel.processWaitLoop p
      .ok (s.waited p r k)
    else .error .unknown

/-- One process has been created, and its name is 0. -/
def boot (sp pc : Nat) : History := ⟨Kernel.empty.processCreate sp pc, []⟩

end History

/-! ## The record -/

/-- The numbers of the processes that were returned to a waiting parent. -/
def reaped : List Event → List Int
  | [] => []
  | .reap _ pid _ _ :: es => pid :: reaped es
  | .exit _ _ :: es => reaped es

/--
Every process that is returned has exited before, with the status that is stored, is
returned once, and goes to the one that is its parent; and a process exits once.
-/
def Orderly : List Event → Prop
  | [] => True
  | .exit pid _ :: es => (∀ status, .exit pid status ∉ es) ∧ Orderly es
  | .reap waiter pid status parent :: es =>
    (∃ n st, pid = (n : Nat) ∧ status = some st ∧ .exit n st ∈ es) ∧ pid ∉ reaped es
      ∧ parent = some waiter ∧ Orderly es

/-! ## What leaves the tree alone -/

/-- Nothing has changed that the tree or a waiting parent depends on. -/
structure Process.Alike (P P' : Process) : Prop where
  id : P'.id = P.id
  parent : P'.parent = P.parent
  children : P'.children = P.children
  exitStatus : P'.exitStatus = P.exitStatus
  dead : P'.state = .dead ↔ P.state = .dead

theorem Process.Alike.refl (P : Process) : P.Alike P := ⟨rfl, rfl, rfl, rfl, Iff.rfl⟩

theorem Process.Alike.trans {P P' P'' : Process} (h : P.Alike P') (h' : P'.Alike P'') : P.Alike P'' :=
  ⟨h'.id.trans h.id, h'.parent.trans h.parent, h'.children.trans h.children,
    h'.exitStatus.trans h.exitStatus, h'.dead.trans h.dead⟩

theorem Process.Roused.alike {P P' : Process} (h : P.Roused P') : P.Alike P' := by
  rcases h with rfl | ⟨hb, rfl⟩
  · exact .refl P'
  · exact ⟨rfl, rfl, rfl, rfl, ⟨fun h => absurd h (by simp), fun h => absurd (hb.symm.trans h) (by simp)⟩⟩

namespace Kernel

variable {k k' k'' : Kernel} {p c w : Nat} {P C : Process}

structure Alike (k k' : Kernel) : Prop where
  rel : k.processes.Rel Process.Alike k'.processes
  all : k'.allProcesses = k.allProcesses
  maxId : k'.maxId = k.maxId

theorem Alike.refl (k : Kernel) : k.Alike k := ⟨.refl Process.Alike.refl _, rfl, rfl⟩

theorem Alike.trans (h : k.Alike k') (h' : k'.Alike k'') : k.Alike k'' :=
  ⟨h.rel.trans Process.Alike.trans h'.rel, h'.all.trans h.all, h'.maxId.trans h.maxId⟩

theorem Roused.alike (h : k.Roused k') : k.Alike k' :=
  ⟨h.rel.mono Process.Roused.alike, h.all, h.maxId⟩

theorem Alike.update (k : Kernel) (p : Nat) {f : Process → Process} (hf : ∀ P, Process.Alike P (f P)) :
    k.Alike (k.update p f) := ⟨.modify Process.Alike.refl p hf, rfl, rfl⟩

/-- A change of one process that is there. -/
theorem Alike.modify (hp : k.processes.get p = some P) {f : Process → Process}
    (hf : Process.Alike P (f P)) : k.Alike (k.update p f) := by
  refine ⟨fun q => ?_, rfl, rfl⟩
  show Option.Rel _ _ ((k.processes.modify p f).get q)
  by_cases hq : q = p
  · rw [hq, Store.modify_self, hp]
    exact .some hf
  · rw [Store.modify_ne hq]
    exact Store.Rel.refl Process.Alike.refl _ q

/-- The exit of a process, after its state has been set. -/
theorem processExit_alike (hq : k.Queued) (hp : k.processes.get p = some P) (hs : P.state = .ready)
    {status : Int} (h : k.processExit p status = .ok k') : k'.Queued
      ∧ (k.update p fun P => { P with state := .dead, exitStatus := status }).Alike k' := by
  obtain ⟨k1, hrel, h⟩ := bind_eq_ok h
  cases h
  obtain ⟨hq1, halike⟩ := releaseFiles_rule (R := Alike) Alike.refl Alike.trans
    (fun k i => .update k p fun _ => ⟨rfl, rfl, rfl, rfl, Iff.rfl⟩) Roused.alike
    (hq.awake hp (by rw [hs]; simp) fun P => { P with state := .dead, exitStatus := status }) hrel
  obtain ⟨hq2, hwake⟩ := hq1.wake .child
  have hlists : (k1.processWake .child).2.allProcesses = k1.allProcesses
      ∧ (k1.processWake .child).2.maxId = k1.maxId := by
    unfold processWake
    cases k1.waitqs .child with
    | nil => exact ⟨rfl, rfl⟩
    | cons r rest => exact ⟨rfl, rfl⟩
  exact ⟨hq2, halike.trans ⟨hwake.mono Process.Roused.alike, hlists.1, hlists.2⟩⟩

/-! ## The tree -/

/-- The parents and children of the processes. -/
def kin (k : Kernel) : ParentTree.Tree Nat := fun p => (k.processes.get p).map fun P => ⟨P.parent, P.children⟩

theorem kin_get (hp : k.processes.get p = some P) : k.kin p = some ⟨P.parent, P.children⟩ := by
  unfold kin
  rw [hp]
  rfl

theorem Alike.kin (h : k.Alike k') : k'.kin = k.kin := by
  funext p
  unfold Kernel.kin
  have hp := h.rel p
  generalize k.processes.get p = a at *
  generalize k'.processes.get p = b at *
  cases hp with
  | none => rfl
  | some hP => simp only [Option.map_some, hP.parent, hP.children]

/-- **A fork adds a leaf.** -/
theorem forkProcess_kin (hp : k.processes.get p = some P) :
    (k.forkProcess p P).kin = k.kin.add p k.processes.next := by
  funext q
  unfold ParentTree.Tree.add
  rw [kin_get hp]
  unfold kin
  rw [forkProcess_get hp]
  by_cases hqn : q = k.processes.next
  · rw [if_pos hqn, if_pos hqn]
    rfl
  · rw [if_neg hqn, if_neg hqn]
    by_cases hqp : q = p
    · rw [if_pos hqp, if_pos hqp]
      rfl
    · rw [if_neg hqp, if_neg hqp]

/-- The process that is its own parent is found. -/
theorem unlisted_root {root : Nat} (hk : k.kin.Ok root) (hall : root ∈ k.allProcesses)
    (hne : p ≠ root) : (k.unlisted w p).findToplevelProcess = some root := by
  obtain ⟨R, hR, hpar⟩ := hk.top
  obtain ⟨R₀, hR₀, rfl⟩ := Option.map_eq_some_iff.mp hR
  cases ht : (k.unlisted w p).findToplevelProcess with
  | some t =>
    obtain ⟨T, hT, htp⟩ := unlisted_toplevel ht
    rw [hk.eq_root (kin_get hT) htp]
  | none =>
    -- the search passes the root
    have hmem : root ∈ (k.unlisted w p).allProcesses := (List.mem_erase_of_ne (Ne.symm hne)).mpr hall
    have hno := List.find?_eq_none.mp ht root hmem
    have hget : ∃ R', (k.unlisted w p).processes.get root = some R' ∧ R'.parent = R₀.parent := by
      show ∃ R', (k.processes.modify w _).get root = some R' ∧ _
      by_cases hrw : root = w
      · rw [← hrw, Store.modify_self, hR₀]
        exact ⟨_, rfl, rfl⟩
      · rw [Store.modify_ne hrw]
        exact ⟨R₀, hR₀, rfl⟩
    obtain ⟨R', hR', hpar'⟩ := hget
    rw [hR'] at hno
    exact absurd (hpar'.trans hpar) (by simpa using hno)

/-- **Destroying a process hands its children to the root.** -/
theorem processDestroy_kin {root : Nat} {W : Process} (hk : k.kin.Ok root)
    (hall : root ∈ k.allProcesses) (hw : k.processes.get w = some W)
    (hp : k.processes.get p = some P) (hpw : p ∈ W.children) (h : k.processDestroy w p = .ok k') :
    p ≠ root ∧ P.parent = w ∧ k'.kin = k.kin.remove root w p P.children := by
  obtain ⟨hne, N, hN, hpar⟩ := hk.child (kin_get hw) hpw
  rw [kin_get hp] at hN
  cases hN
  obtain ⟨_, hget⟩ := processDestroy_get hw hp h
  rw [unlisted_root hk hall hne] at hget
  refine ⟨hne, hpar, ?_⟩
  funext q
  unfold kin ParentTree.Tree.remove
  rw [hget q]
  by_cases hqp : q = p
  · rw [if_pos hqp, if_pos hqp]
    rfl
  · rw [if_neg hqp, if_neg hqp, Option.map_map, Option.map_map]
    refine congrArg (fun f => Option.map f (k.processes.get q)) (funext fun Q => ?_)
    simp only [Function.comp_apply, adopt, Option.getD_some, Option.some.injEq]
    congr 1
    · by_cases hqw : q = w
      · simp only [if_pos hqw]
      · simp only [if_neg hqw]
    · by_cases hqr : root = q
      · subst hqr
        by_cases hqw : root = w
        · simp only [if_pos hqw, if_true]
        · simp only [if_neg hqw, if_true]
      · by_cases hqw : q = w
        · simp only [if_pos hqw, if_neg hqr, if_neg (Ne.symm hqr), List.nil_append]
        · simp only [if_neg hqw, if_neg hqr, if_neg (Ne.symm hqr), List.nil_append]

end Kernel

/-! ## The invariant -/

/-- The invariant of a run. -/
structure History.Inv (s : History) : Prop where
  tree : s.kernel.kin.Ok 0
  /-- `all_processes` lists the processes, and their numbers are different. -/
  listed : Store.Listed s.kernel.processes s.kernel.allProcesses Process.id
    fun P => 0 < P.id ∧ P.id < s.kernel.maxId
  queued : s.kernel.Queued
  /-- A process that is not dead has not exited. -/
  alive : ∀ {p P}, s.kernel.processes.get p = some P → P.state ≠ .dead →
    ∀ status, .exit P.id status ∉ s.events
  /-- A process that is dead has exited with its status. -/
  died : ∀ {p P}, s.kernel.processes.get p = some P → P.state = .dead →
    .exit P.id P.exitStatus ∈ s.events
  /-- A process that was returned is gone. -/
  gone : ∀ {p P}, s.kernel.processes.get p = some P → (P.id : Int) ∉ reaped s.events
  /-- Nobody has exited or was returned whose number is still to come. -/
  past : (∀ {pid status}, .exit pid status ∈ s.events → pid < s.kernel.maxId)
    ∧ ∀ pid ∈ reaped s.events, pid < s.kernel.maxId
  orderly : Orderly s.events

namespace History

variable {s s' : History} {k k' : Kernel} {es : List Event} {p c : Nat} {P C : Process}

/-- Steps that leave the tree alone keep the invariant. -/
theorem Inv.alike (hi : Inv ⟨k, es⟩) (h : k.Alike k') (hq : k'.Queued) : Inv ⟨k', es⟩ := by
  have hback : ∀ {p P'}, k'.processes.get p = some P' → ∃ P, k.processes.get p = some P
      ∧ P.Alike P' := fun hp => h.rel.back hp
  refine ⟨by rw [h.kin]; exact hi.tree, ⟨fun q => ?_, ?_, fun {q Q'} hQ' => ?_,
    fun {q r Q' R'} hQ' hR' he => ?_⟩, hq, fun {q Q'} hQ' hne => ?_, fun {q Q'} hQ' hd => ?_,
    fun {q Q'} hQ' => ?_, ?_, hi.orderly⟩
  · simp only [h.all]
    rw [hi.listed.mem q]
    have hrel := h.rel q
    generalize k.processes.get q = a at *
    generalize k'.processes.get q = b at *
    cases hrel with
    | none => exact Iff.rfl
    | some _ => exact Iff.rfl
  · simp only [h.all]
    exact hi.listed.nodup
  · obtain ⟨Q, hQ, ha⟩ := hback hQ'
    rw [ha.id, h.maxId]
    exact hi.listed.ok hQ
  · obtain ⟨Q, hQ, ha⟩ := hback hQ'
    obtain ⟨R, hR, hb⟩ := hback hR'
    rw [ha.id, hb.id] at he
    exact hi.listed.inj hQ hR he
  · obtain ⟨Q, hQ, ha⟩ := hback hQ'
    rw [ha.id]
    exact hi.alive hQ fun hd => hne (ha.dead.mpr hd)
  · obtain ⟨Q, hQ, ha⟩ := hback hQ'
    rw [ha.id, ha.exitStatus]
    exact hi.died hQ (ha.dead.mp hd)
  · obtain ⟨Q, hQ, ha⟩ := hback hQ'
    rw [ha.id]
    exact hi.gone hQ
  · simp only [h.maxId]
    exact hi.past

theorem Inv.fork (hi : Inv ⟨k, es⟩) (hp : k.processes.get p = some P) : Inv ⟨k.forkProcess p P, es⟩ := by
  have hmax : (k.forkProcess p P).maxId = k.maxId + 1 := rfl
  have hcases : ∀ {q Q}, (k.forkProcess p P).processes.get q = some Q →
      (q = k.processes.next ∧ Q.id = k.maxId ∧ Q.state = .ready)
        ∨ (q ≠ k.processes.next ∧ ∃ Q₀, k.processes.get q = some Q₀ ∧ Q.id = Q₀.id
          ∧ Q.state = Q₀.state ∧ Q.exitStatus = Q₀.exitStatus) := by
    intro q Q hQ
    rcases Kernel.forkProcess_cases hp hQ with ⟨rfl, rfl⟩ | ⟨rfl, rfl⟩ | h
    · exact .inl ⟨rfl, rfl, rfl⟩
    · exact .inr ⟨Nat.ne_of_lt (Store.lt_next hp), P, hp, rfl, rfl, rfl⟩
    · exact .inr ⟨Nat.ne_of_lt (Store.lt_next h), Q, h, rfl, rfl, rfl⟩
  have hfresh : k.kin k.processes.next = none := by
    unfold Kernel.kin
    rw [k.processes.fresh _ (Nat.le_refl _)]
    rfl
  refine ⟨?_, ⟨fun q => ?_, ?_, fun {q Q} hQ => ?_, fun {q r Q R} hQ hR he => ?_⟩, ?_,
    fun {q Q} hQ hne status => ?_, fun {q Q} hQ hd => ?_, fun {q Q} hQ => ?_, ⟨fun {pid st} h => ?_,
    fun pid h => ?_⟩, hi.orderly⟩
  · rw [Kernel.forkProcess_kin hp]
    exact hi.tree.add (Kernel.kin_get hp) hfresh
  · show q ∈ k.processes.next :: k.allProcesses ↔ _
    rw [List.mem_cons, hi.listed.mem q, Kernel.forkProcess_get hp]
    by_cases hqn : q = k.processes.next
    · simp [hqn]
    · rw [if_neg hqn]
      by_cases hqp : q = p
      · simp [hqp, hp]
      · simp [hqn, hqp]
  · refine List.nodup_cons.mpr ⟨fun hmem => ?_, hi.listed.nodup⟩
    have := (hi.listed.mem _).mp hmem
    rw [k.processes.fresh _ (Nat.le_refl _)] at this
    cases this
  · rw [hmax]
    rcases hcases hQ with ⟨_, hid, _⟩ | ⟨_, Q₀, hQ₀, hid, _⟩
    · have := (hi.listed.ok hp)
      simp only at this
      omega
    · have := (hi.listed.ok hQ₀)
      simp only at this
      omega
  · rcases hcases hQ with ⟨hq, hid, _⟩ | ⟨_, Q₀, hQ₀, hid, _⟩ <;>
      rcases hcases hR with ⟨hr, hid', _⟩ | ⟨_, R₀, hR₀, hid', _⟩
    · rw [hq, hr]
    · have := (hi.listed.ok hR₀).2
      simp only at this
      omega
    · have := (hi.listed.ok hQ₀).2
      simp only at this
      omega
    · exact hi.listed.inj hQ₀ hR₀ (by rw [← hid, ← hid', he])
  · refine Kernel.Queued.sub hi.queued (fun q => List.Sublist.refl _) fun {q _ Q} _ hQ => ?_
    rw [Kernel.forkProcess_get hp, if_neg (Nat.ne_of_lt (Store.lt_next hQ))]
    by_cases hqp : q = p
    · rw [if_pos hqp]
      rw [hqp, hp] at hQ
      cases hQ
      exact ⟨_, rfl, rfl⟩
    · rw [if_neg hqp]
      exact ⟨Q, hQ, rfl⟩
  · rcases hcases hQ with ⟨_, hid, _⟩ | ⟨_, Q₀, hQ₀, hid, hs, _⟩
    · intro hmem
      have := hi.past.1 hmem
      simp only at this
      omega
    · rw [hid]
      exact hi.alive hQ₀ (by rw [← hs]; exact hne) status
  · rcases hcases hQ with ⟨_, _, hs⟩ | ⟨_, Q₀, hQ₀, hid, hs, hst⟩
    · rw [hs] at hd
      cases hd
    · rw [hid, hst]
      exact hi.died hQ₀ (hs.symm.trans hd)
  · rcases hcases hQ with ⟨_, hid, _⟩ | ⟨_, Q₀, hQ₀, hid, _⟩
    · intro hmem
      have := hi.past.2 _ hmem
      simp only at this
      omega
    · rw [hid]
      exact hi.gone hQ₀
  · have := hi.past.1 h
    exact Nat.lt_succ_of_lt this
  · have := hi.past.2 pid h
    rw [hmax]
    simp only at this
    omega

/-- A process dies, and its exit is recorded. -/
theorem Inv.die (hi : Inv ⟨k, es⟩) (hp : k.processes.get p = some P) (hs : P.state = .ready)
    (status : Int) : Inv ⟨k.update p fun P => { P with state := .dead, exitStatus := status },
      .exit P.id status :: es⟩ := by
  have hback : ∀ {q Q'}, (k.update p fun P => { P with state := .dead, exitStatus := status }).processes.get q
      = some Q' → ∃ Q, k.processes.get q = some Q
        ∧ Q' = if q = p then { Q with state := .dead, exitStatus := status } else Q :=
    fun h => Store.get_modify h
  have hid : ∀ {q Q Q'}, k.processes.get q = some Q →
      Q' = (if q = p then { Q with state := .dead, exitStatus := status } else Q) → Q'.id = Q.id := by
    intro q Q Q' _ h
    rw [h]
    split <;> rfl
  have hkin : (k.update p fun P => { P with state := .dead, exitStatus := status }).kin = k.kin := by
    funext q
    unfold Kernel.kin
    show Option.map _ ((k.processes.modify p _).get q) = _
    by_cases hq : q = p
    · rw [hq, Store.modify_self, Option.map_map]
      rfl
    · rw [Store.modify_ne hq]
  refine ⟨by rw [hkin]; exact hi.tree, ⟨fun q => ?_, hi.listed.nodup, fun {q Q'} hQ' => ?_,
    fun {q r Q' R'} hQ' hR' he => ?_⟩, ?_, fun {q Q'} hQ' hne st => ?_, fun {q Q'} hQ' hd => ?_,
    fun {q Q'} hQ' => ?_, ⟨fun {pid st} h => ?_, hi.past.2⟩, ?_, hi.orderly⟩
  · show q ∈ k.allProcesses ↔ ((k.processes.modify p _).get q).isSome
    rw [Store.isSome_modify]
    exact hi.listed.mem q
  · obtain ⟨Q, hQ, h⟩ := hback hQ'
    rw [hid hQ h]
    exact hi.listed.ok hQ
  · obtain ⟨Q, hQ, h⟩ := hback hQ'
    obtain ⟨R, hR, h'⟩ := hback hR'
    rw [hid hQ h, hid hR h'] at he
    exact hi.listed.inj hQ hR he
  · exact Kernel.Queued.awake hi.queued hp (by rw [hs]; simp) _
  · obtain ⟨Q, hQ, rfl⟩ := hback hQ'
    by_cases hq : q = p
    · rw [if_pos hq] at hne
      exact absurd rfl hne
    · rw [if_neg hq] at hne ⊢
      intro hmem
      rcases List.mem_cons.mp hmem with he | hmem
      · injection he with he _
        exact hq (hi.listed.inj hQ hp he)
      · exact hi.alive hQ hne st hmem
  · obtain ⟨Q, hQ, rfl⟩ := hback hQ'
    by_cases hq : q = p
    · rw [if_pos hq]
      rw [hq, hp] at hQ
      cases hQ
      exact List.mem_cons_self ..
    · rw [if_neg hq] at hd ⊢
      exact List.mem_cons_of_mem _ (hi.died hQ hd)
  · obtain ⟨Q, hQ, h⟩ := hback hQ'
    rw [hid hQ h]
    exact hi.gone hQ
  · rcases List.mem_cons.mp h with he | h
    · injection he with he _
      rw [he]
      exact (hi.listed.ok hp).2
    · exact hi.past.1 h
  · exact fun st hmem => hi.alive hp (by rw [hs]; simp) st hmem

/-- A dead child is destroyed by its parent, and its number returned. -/
theorem Inv.reap (hi : Inv ⟨k, es⟩) (hp : k.processes.get p = some P) (hcp : c ∈ P.children)
    (hc : k.processes.get c = some C) (hd : C.state = .dead) (h : k.processDestroy p c = .ok k') :
    Inv ⟨k', .reap p C.id (some C.exitStatus) (some p) :: es⟩ := by
  obtain ⟨R, hR, _⟩ := hi.tree.top
  obtain ⟨R₀, hR₀, _⟩ := Option.map_eq_some_iff.mp hR
  have hall : (0 : Nat) ∈ k.allProcesses := (hi.listed.mem 0).mpr (Option.isSome_of_eq_some hR₀)
  obtain ⟨hne, hpar, hkin⟩ := Kernel.processDestroy_kin hi.tree hall hp hc hcp h
  obtain ⟨hpc, hget⟩ := Kernel.processDestroy_get hp hc h
  obtain ⟨_, hlist, _, hwait, _, hmax⟩ := Kernel.processDestroy_lists h
  -- who is left keeps its number, state and status
  have hback : ∀ {q Q'}, k'.processes.get q = some Q' → q ≠ c ∧ ∃ Q, k.processes.get q = some Q
      ∧ Q'.id = Q.id ∧ Q'.state = Q.state ∧ Q'.exitStatus = Q.exitStatus := by
    intro q Q' hQ'
    rw [hget q] at hQ'
    split at hQ'
    · cases hQ'
    · rename_i hqc
      obtain ⟨Q, hQ, rfl⟩ := Option.map_eq_some_iff.mp hQ'
      refine ⟨hqc, Q, hQ, ?_⟩
      split <;> exact ⟨rfl, rfl, rfl⟩
  refine ⟨?_, ⟨fun q => ?_, ?_, fun {q Q'} hQ' => ?_, fun {q r Q' R'} hQ' hR' he => ?_⟩, ?_,
    fun {q Q'} hQ' hs st hmem => ?_, fun {q Q'} hQ' hs => ?_, fun {q Q'} hQ' hmem => ?_,
    ⟨fun {pid st} hmem => ?_, fun pid hmem => ?_⟩,
    ⟨C.id, C.exitStatus, rfl, rfl, hi.died hc hd⟩, hi.gone hc, rfl, hi.orderly⟩
  · rw [hkin, ← hpar]
    exact hi.tree.remove (Kernel.kin_get hc) hne
  · simp only [hlist]
    rw [hi.listed.nodup.mem_erase_iff, hi.listed.mem q, hget q]
    by_cases hqc : q = c
    · simp [hqc]
    · simp [hqc]
  · simp only [hlist]
    exact hi.listed.nodup.erase c
  · obtain ⟨_, Q, hQ, hid, _⟩ := hback hQ'
    rw [hid, hmax]
    exact hi.listed.ok hQ
  · obtain ⟨_, Q, hQ, hid, _⟩ := hback hQ'
    obtain ⟨_, R, hR, hid', _⟩ := hback hR'
    exact hi.listed.inj hQ hR (by rw [← hid, ← hid', he])
  · refine Kernel.Queued.sub hi.queued (fun q => by rw [hwait]) fun {q w Q} hmem hQ => ?_
    rw [hwait] at hmem
    have hqc : q ≠ c := by
      rintro rfl
      exact hi.queued.not_mem hc (by rw [hd]; simp) w hmem
    rw [hget q, if_neg hqc, hQ]
    refine ⟨_, rfl, ?_⟩
    split <;> rfl
  · obtain ⟨_, Q, hQ, hid, hst, _⟩ := hback hQ'
    rw [hid] at hmem
    exact hi.alive hQ (by rw [← hst]; exact hs) st
      ((List.mem_cons.mp hmem).resolve_left (by simp))
  · obtain ⟨_, Q, hQ, hid, hst, hex⟩ := hback hQ'
    rw [hid, hex]
    exact List.mem_cons_of_mem _ (hi.died hQ (hst.symm.trans hs))
  · obtain ⟨hqc, Q, hQ, hid, _⟩ := hback hQ'
    rw [hid] at hmem
    rcases List.mem_cons.mp hmem with he | hmem
    · exact hqc (hi.listed.inj hQ hc (by simpa using he))
    · exact hi.gone hQ hmem
  · rw [hmax]
    exact hi.past.1 ((List.mem_cons.mp hmem).resolve_left (by simp))
  · rw [hmax]
    rcases List.mem_cons.mp hmem with rfl | hmem
    · have := (hi.listed.ok hc).2
      exact_mod_cast this
    · exact hi.past.2 pid hmem

/-- The number of a process leads to it. -/
theorem Inv.find (hi : Inv ⟨k, es⟩) (hc : k.processes.get c = some C) :
    k.findProcess C.id = some c := by
  have hmem : c ∈ k.allProcesses := (hi.listed.mem c).mpr (Option.isSome_of_eq_some hc)
  cases hf : k.findProcess C.id with
  | none =>
    have hno := List.find?_eq_none.mp hf c hmem
    rw [hc] at hno
    exact absurd hno (by simp)
  | some q =>
    have hq := List.find?_some hf
    cases hQ : k.processes.get q with
    | none =>
      rw [hQ] at hq
      cases hq
    | some Q =>
      rw [hQ] at hq
      have he : Q.id = C.id := by simpa using hq
      rw [hi.listed.inj hQ hc he]

/-- **The loop of `process_wait`.** -/
theorem Inv.waitLoop (hi : Inv ⟨k, es⟩) (hp : k.processes.get p = some P) (hs : P.state = .ready)
    {r : Option Kernel.Waited} (h : k.processWaitLoop p = .ok (r, k')) : (waited ⟨k, es⟩ p r k').Inv := by
  unfold Kernel.processWaitLoop at h
  rw [hp] at h
  simp only at h
  cases hfind : P.children.find? k.isDead with
  | none =>
    rw [hfind] at h
    cases h
    -- the process goes to sleep
    have halike := Kernel.Alike.modify hp
      (f := fun P => { P with state := .blocked, suspend := some .wait })
      ⟨rfl, rfl, rfl, rfl, ⟨fun h => absurd h (by simp), fun h => absurd (hs.symm.trans h) (by simp)⟩⟩
    exact hi.alike ⟨halike.rel, rfl, rfl⟩ (hi.queued.sleep hp (by rw [hs]; simp) .child .wait)
  | some c =>
    rw [hfind] at h
    simp only at h
    have hcp := List.mem_of_find?_eq_some hfind
    have hdead := List.find?_some hfind
    cases hc : k.processes.get c with
    | none =>
      rw [hc] at h
      cases h
    | some C =>
      rw [hc] at h
      obtain ⟨k1, hd, h⟩ := bind_eq_ok h
      cases h
      have hparent : k.parentOf C.id = some p := by
        obtain ⟨_, N, hN, hpar⟩ := hi.tree.child (Kernel.kin_get hp) hcp
        rw [Kernel.kin_get hc] at hN
        cases hN
        unfold Kernel.parentOf
        rw [hi.find hc, Option.bind_some, hc]
        exact congrArg some hpar
      have hpos : (0 : Int) < C.id := by exact_mod_cast (hi.listed.ok hc).1
      unfold waited
      simp only [if_pos hpos, hparent]
      exact hi.reap hp hcp hc ((Kernel.isDead_iff hc).mp hdead) hd

theorem mayCall_iff : k.mayCall p = true ↔ ∃ P, k.processes.get p = some P ∧ P.state = .ready
    ∧ P.suspend = none := by
  unfold Kernel.mayCall
  cases k.processes.get p with
  | none => simp
  | some P => simp

/-- **One step keeps the invariant.** -/
theorem Inv.step {a : FamilyAct} (hi : s.Inv) (h : s.step a = .ok s') : s'.Inv := by
  obtain ⟨k, es⟩ := s
  cases a with
  | fork p =>
    simp only [History.step] at h
    split at h
    · obtain ⟨⟨r, k1⟩, hf, h⟩ := bind_eq_ok h
      cases h
      unfold Kernel.processFork at hf
      cases hp : k.processes.get p with
      | none =>
        rw [hp] at hf
        cases hf
      | some P =>
        rw [hp] at hf
        obtain ⟨k2, hcount, hf⟩ := bind_eq_ok hf
        cases hf
        have hfork := hi.fork hp
        obtain ⟨files, pipes, rfl⟩ := Kernel.countupFiles_files hcount
        exact hfork.alike ⟨.refl Process.Alike.refl _, rfl, rfl⟩
          ⟨hfork.queued.blocked, hfork.queued.unique, hfork.queued.nodup⟩
    · cases h
  | exit p status =>
    simp only [History.step] at h
    split at h
    · rename_i hmay
      obtain ⟨k1, he, h⟩ := bind_eq_ok h
      cases h
      obtain ⟨P, hp, hs, _⟩ := mayCall_iff.mp hmay
      have hpid : k.pidOf p = P.id := by
        unfold Kernel.pidOf
        rw [hp]
        rfl
      obtain ⟨hq, halike⟩ := Kernel.processExit_alike hi.queued hp hs he
      simp only [hpid]
      exact (hi.die hp hs status).alike halike hq
    · cases h
  | wait p =>
    simp only [History.step] at h
    split at h
    · rename_i hmay
      obtain ⟨⟨r, k1⟩, hw, h⟩ := bind_eq_ok h
      cases h
      obtain ⟨P, hp, hs, _⟩ := mayCall_iff.mp hmay
      unfold Kernel.processWait at hw
      rw [hp] at hw
      simp only at hw
      split at hw
      · cases hw
        exact hi
      · exact hi.waitLoop hp hs hw
    · cases h
  | resume p =>
    simp only [History.step] at h
    split at h
    · rename_i hmay
      obtain ⟨⟨r, k1⟩, hw, h⟩ := bind_eq_ok h
      cases h
      unfold Kernel.mayResume at hmay
      cases hp : k.processes.get p with
      | none =>
        rw [hp] at hmay
        cases hmay
      | some P =>
        rw [hp] at hmay
        have hs : P.state = .ready := by
          simp only [Option.any_some, Bool.and_eq_true, beq_iff_eq] at hmay
          exact hmay.1
        have hi' : Inv ⟨k.update p fun P => { P with suspend := none }, es⟩ :=
          hi.alike (.update k p fun _ => ⟨rfl, rfl, rfl, rfl, Iff.rfl⟩)
            (hi.queued.update p fun _ => rfl)
        exact hi'.waitLoop (Store.modify_self_of hp rfl) hs hw
    · cases h

theorem boot_inv (sp pc : Nat) : (boot sp pc).Inv := by
  have hget : ∀ q, (boot sp pc).kernel.processes.get q
      = if q = 0 then some (Kernel.createdProcess 1 0 0 sp pc) else none :=
    fun q => Kernel.processCreate_get Kernel.empty sp pc q
  have hone : ∀ {q Q}, (boot sp pc).kernel.processes.get q = some Q →
      q = 0 ∧ Q = Kernel.createdProcess 1 0 0 sp pc := by
    intro q Q hQ
    rw [hget q] at hQ
    split at hQ
    · exact ⟨‹_›, (Option.some.inj hQ).symm⟩
    · cases hQ
  have hkin : ∀ {q : Nat} {N : Node Nat}, (boot sp pc).kernel.kin q = some N →
      q = 0 ∧ N = ⟨0, []⟩ := by
    intro q N hN
    obtain ⟨Q, hQ, rfl⟩ := Option.map_eq_some_iff.mp hN
    obtain ⟨rfl, rfl⟩ := hone hQ
    exact ⟨rfl, rfl⟩
  refine ⟨⟨⟨⟨0, []⟩, ?_, rfl⟩, fun {c C} hc hne => ?_, fun {p P c} hp hc => ?_, fun {p P} hp => ?_,
    fun {c C} hc => ?_⟩, ⟨fun q => ?_, ?_, fun {q Q} hQ => ?_, fun {q r Q R} hQ hR _ => ?_⟩,
    ⟨fun hp => ?_, fun hp => ?_, fun q => List.nodup_nil⟩, fun _ _ _ h => absurd h List.not_mem_nil,
    fun {q Q} hQ hd => ?_, fun _ h => absurd h List.not_mem_nil,
    ⟨fun h => absurd h List.not_mem_nil, fun _ h => absurd h List.not_mem_nil⟩, trivial⟩
  · exact Kernel.kin_get ((hget 0).trans (if_pos rfl))
  · exact absurd (hkin hc).1 hne
  · rw [(hkin hp).2] at hc
    exact absurd hc List.not_mem_nil
  · rw [(hkin hp).2]
    exact List.nodup_nil
  · rw [(hkin hc).1]
    exact .root
  · show q ∈ [0] ↔ _
    rw [hget q]
    by_cases hq : q = 0
    · simp [hq]
    · simp [hq]
  · exact List.nodup_singleton 0
  · rw [(hone hQ).2]
    exact ⟨show 0 < 1 by decide, show 1 < 2 by decide⟩
  · rw [(hone hQ).1, (hone hR).1]
  · exact absurd hp List.not_mem_nil
  · exact absurd hp List.not_mem_nil
  · rw [(hone hQ).2] at hd
    exact absurd hd (by simp [Kernel.createdProcess, Kernel.newProcess])

end History

/-! ## Whole runs -/

/-- What the tree with the root `boot` looks like from `all_processes`. -/
structure Kernel.Rooted (k : Kernel) (boot : Nat) : Prop where
  /-- Every process but the first is listed once, by its parent, which is in `all_processes`. -/
  child : ∀ c ∈ k.allProcesses, c ≠ boot → ∃ C, k.processes.get c = some C
    ∧ C.parent ∈ k.allProcesses ∧ ∀ q ∈ k.allProcesses, ∃ Q, k.processes.get q = some Q
      ∧ Q.children.count c = if q = C.parent then 1 else 0
  /-- Following `parent` from any process leads to the first one. -/
  reaches : ∀ c ∈ k.allProcesses, k.kin.Under boot c

theorem History.Inv.rooted {s : History} (hi : s.Inv) : s.kernel.Rooted 0 := by
  refine ⟨fun c hc hne => ?_, fun c hc => ?_⟩
  · obtain ⟨C, hC⟩ := Option.isSome_iff_exists.mp ((hi.listed.mem c).mp hc)
    obtain ⟨N, hN, hmem⟩ := hi.tree.listed (Kernel.kin_get hC) hne
    obtain ⟨P, hP, rfl⟩ := Option.map_eq_some_iff.mp hN
    refine ⟨C, hC, (hi.listed.mem _).mpr (Option.isSome_of_eq_some hP), fun q hq => ?_⟩
    obtain ⟨Q, hQ⟩ := Option.isSome_iff_exists.mp ((hi.listed.mem q).mp hq)
    refine ⟨Q, hQ, ?_⟩
    by_cases hqp : q = C.parent
    · rw [if_pos hqp]
      have hnd := hi.tree.nodup (Kernel.kin_get hQ)
      rw [hqp] at hQ
      rw [show P = Q from Option.some.inj (hP.symm.trans hQ)] at hmem
      exact List.count_eq_one_of_mem hnd hmem
    · rw [if_neg hqp]
      refine List.count_eq_zero.mpr fun hcq => hqp ?_
      obtain ⟨_, N', hN', hpar⟩ := hi.tree.child (Kernel.kin_get hQ) hcq
      rw [Kernel.kin_get hC] at hN'
      cases hN'
      exact hpar.symm
  · obtain ⟨C, hC⟩ := Option.isSome_iff_exists.mp ((hi.listed.mem c).mp hc)
    exact hi.tree.under (Kernel.kin_get hC)

/--
**The process tree and reaping.** After any forks, exits and waits the processes are a tree
under the first one, and what was returned to waiting parents is in order.
-/
theorem process_tree_and_reaping {sp pc : Nat} {as : List FamilyAct} {s : History}
    (hr : Run (fun s a s' => History.step s a = .ok s') (.boot sp pc) as s) :
    s.kernel.Rooted 0 ∧ Orderly s.events := by
  have hi : s.Inv := hr.invariant (History.boot_inv sp pc) fun _ _ _ hi h => hi.step h
  exact ⟨hi.rooted, hi.orderly⟩

/-- A child that has a child of its own exits and is waited for. -/
theorem process_tree_and_reaping_grandchild : ∃ s,
    Run (fun s a s' => History.step s a = .ok s') (.boot 0 0)
      [.fork 0, .fork 1, .wait 0, .exit 1 768, .resume 0] s
      ∧ s.events = [.reap 0 2 (some 768) (some 0), .exit 2 768]
      ∧ s.kernel.Rooted 0 ∧ Orderly s.events := by
  obtain ⟨s, hrun, hevents⟩ := Run.of_probe History.step (.boot 0 0)
    [.fork 0, .fork 1, .wait 0, .exit 1 768, .resume 0] History.events
    (b := [.reap 0 2 (some 768) (some 0), .exit 2 768]) (by decide)
  exact ⟨s, hrun, hevents, process_tree_and_reaping hrun⟩

end Cyanurus
