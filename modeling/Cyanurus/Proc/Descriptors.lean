import Cyanurus.Lib.Tally
import Cyanurus.Proc.Queues
import Cyanurus.Proc.FileCount

/-!
# Descriptor accounting

The references that files and pipes count are the slots of all descriptor tables. Every
call on descriptors keeps the counts equal to them, also where it fails half-way and closes
what it has begun with. `Runs` is what the caller of such a call starts from and returns to;
each call has one lemma that gives its result and the table it leaves.
-/

namespace Cyanurus

open Kernel

/-! ## The slots of all tables -/

/-- The file that a slot names. -/
def slotRef : Option Nat → Multiset Nat
  | some f => {f}
  | none => 0

/-- The files that the slots of a process name, once for each slot. -/
def Process.slots (P : Process) : Multiset Nat := P.files.tally slotRef

/-- The files that the slots of all processes name. -/
def Kernel.slots (k : Kernel) : Multiset Nat := k.processes.tally Process.slots

namespace Kernel

variable {k k' k'' k1 : Kernel} {p f : Nat} {P : Process} {i j : Fin maxFdSize} {R : Multiset Nat}

/-- One slot and the rest. -/
theorem slots_split (hp : k.processes.get p = some P) (i : Fin maxFdSize) : ∃ rest,
    k.slots = slotRef (P.files.get i) + rest ∧ ∀ (f : Process → Process) (new : Option Nat),
      (f P).files = P.files.set i new i.isLt → (k.update p f).slots = slotRef new + rest := by
  obtain ⟨r1, h1, h2, _⟩ := Store.tally_split Process.slots hp
  obtain ⟨r2, h3, h4⟩ := P.files.tally_split slotRef i
  refine ⟨r2 + r1, ?_, fun f new hf => ?_⟩
  · refine h1.trans ?_
    rw [Process.slots, h3, add_assoc]
  · refine (h2 f).trans ?_
    rw [Process.slots, hf, h4, add_assoc]

theorem mem_slots (hp : k.processes.get p = some P) (hf : P.files.get i = some f) : f ∈ k.slots := by
  obtain ⟨rest, h, _⟩ := slots_split hp i
  rw [h, hf]
  exact Multiset.mem_add.mpr (.inl (Multiset.mem_singleton_self f))

/-- A change that leaves the table alone. -/
theorem slots_keep (k : Kernel) (p : Nat) {f : Process → Process} (hf : ∀ P, (f P).files = P.files) :
    (k.update p f).slots = k.slots := by
  cases hp : k.processes.get p with
  | none =>
    refine Store.tally_congr rfl fun q => ?_
    by_cases hq : q = p
    · subst hq
      exact (congrArg _ Store.modify_self).trans (by rw [hp]; rfl)
    · exact congrArg _ (Store.modify_ne hq)
  | some P =>
    obtain ⟨rest, h1, h2, _⟩ := Store.tally_split Process.slots hp
    refine (h2 f).trans (h1.trans ?_).symm
    rw [Process.slots, Process.slots, hf P]

theorem Roused.slots (h : k.Roused k') : k'.slots = k.slots :=
  h.rel.tally h.next fun hr => by
    rcases hr with rfl | ⟨_, rfl⟩
    · rfl
    · rfl

/-! ## The invariant -/

structure FileInv (k : Kernel) : Prop where
  counts : Counts k.files k.pipes k.slots
  queued : k.Queued
  served : k.Served
  /-- Only slots in use are marked, in a process that has not exited. -/
  marks : ∀ {p P} i, k.processes.get p = some P → P.state ≠ .dead → P.files.get i = none →
    P.closeOnExec.get i = false

/-- The process `P`, named `p`, is making a call. -/
structure Runs (k : Kernel) (p : Nat) (P : Process) : Prop where
  inv : k.FileInv
  get : k.processes.get p = some P
  awake : P.state ≠ .blocked

/-- What is not the caller's own: the other processes are the same, up to being woken, and
files that stay open are the same ends of pipes. -/
structure Others (p : Nat) (k k' : Kernel) : Prop where
  next : k'.processes.next = k.processes.next
  rel : ∀ q, q ≠ p → Option.Rel Process.Roused (k.processes.get q) (k'.processes.get q)
  queues : ∀ q, (k'.waitqs q).Sublist (k.waitqs q)
  files : Kept k.files k'.files

theorem Others.of_roused (h : k.Roused k') (hf : Kept k.files k'.files) (p : Nat) : Others p k k' :=
  ⟨h.next, fun q _ => h.rel q, h.queues, hf⟩

theorem Others.refl (p : Nat) (k : Kernel) : Others p k k := .of_roused (.refl k) (.refl _) p

theorem Others.trans (h : Others p k k') (h' : Others p k' k'') : Others p k k'' := by
  refine ⟨h'.next.trans h.next, fun q hq => ?_, fun q => (h'.queues q).trans (h.queues q),
    h.files.trans h'.files⟩
  have h1 := h.rel q hq
  have h2 := h'.rel q hq
  generalize k.processes.get q = a at *
  generalize k'.processes.get q = b at *
  generalize k''.processes.get q = c at *
  cases h1 with
  | none =>
    cases h2 with
    | none => exact .none
  | some h1 =>
    cases h2 with
    | some h2 => exact .some (h1.trans h2)

/-- Where another process comes from. -/
theorem Others.back {q : Nat} {Q' : Process} (h : Others p k k') (hq : q ≠ p)
    (hQ : k'.processes.get q = some Q') : ∃ Q, k.processes.get q = some Q ∧ Q.Roused Q' := by
  have h1 := h.rel q hq
  rw [hQ] at h1
  generalize k.processes.get q = a at *
  cases h1 with
  | some h1 => exact ⟨_, rfl, h1⟩

/-- The caller changes, and no one else. -/
theorem Others.update (k : Kernel) (p : Nat) (f : Process → Process) : Others p k (k.update p f) := by
  refine ⟨rfl, fun q hq => ?_, fun q => List.Sublist.refl _, .refl _⟩
  have hne : (k.update p f).processes.get q = k.processes.get q := Store.modify_ne hq
  rw [hne]
  exact Store.Rel.refl Process.Roused.refl _ q

/-- **The rule for a change of the caller.** Processes may have been woken before. -/
theorem Runs.update (h : Runs k p P) (hr : k.Roused k1) (hq : k1.Queued) (hserved : k1.Served)
    (hkept : Kept k.files k1.files) {f : Process → Process}
    (hstate : (f P).state = P.state) (hcounts : Counts k1.files k1.pipes (k1.update p f).slots)
    (hmarks : P.state ≠ .dead → ∀ j, (f P).files.get j = none → (f P).closeOnExec.get j = false) :
    Runs (k1.update p f) p (f P) ∧ Others p k (k1.update p f) := by
  have hp1 : k1.processes.get p = some P := rel_get hr.rel h.get h.awake
  have hget : (k1.update p f).processes.get p = some (f P) :=
    Store.modify_self.trans (by rw [hp1]; rfl)
  have hothers : Others p k (k1.update p f) :=
    (Others.of_roused hr hkept p).trans (.update k1 p f)
  refine ⟨⟨⟨hcounts, hq.awake hp1 h.awake f, hserved, fun {q Q} j hQ hs hj => ?_⟩, hget, ?_⟩, hothers⟩
  · by_cases hqp : q = p
    · subst hqp
      rw [hget] at hQ
      cases hQ
      exact hmarks (hstate ▸ hs) j hj
    · obtain ⟨Q₀, hQ₀, hQ⟩ := hothers.back hqp hQ
      rcases hQ with rfl | ⟨hb, rfl⟩
      · exact h.inv.marks j hQ₀ hs hj
      · exact h.inv.marks (P := Q₀) j hQ₀ (by rw [hb]; simp) hj
  · rw [hstate]
    exact h.awake

theorem update_update (k : Kernel) (p : Nat) (f g : Process → Process) :
    (k.update p f).update p g = k.update p (g ∘ f) := by
  unfold update
  simp only [Store.modify_modify]

theorem update_id (k : Kernel) (p : Nat) : (k.update p fun P => P) = k := by
  unfold update
  have hget : (k.processes.modify p fun P => P).get = k.processes.get := by
    funext q
    by_cases hq : q = p
    · subst hq
      rw [Store.modify_self, Option.map_id']
    · rw [Store.modify_ne hq]
  have hmodify : (k.processes.modify p fun P => P) = k.processes := by
    simp only [Store.modify] at hget ⊢
    simp only [hget]
  rw [hmodify]

/-- A change of the caller that leaves its descriptors alone. -/
theorem Runs.keep (h : Runs k p P) {f : Process → Process} (hf : ∀ P, (f P).files = P.files)
    (hm : (f P).closeOnExec = P.closeOnExec) (hs : (f P).state = P.state) :
    Runs (k.update p f) p (f P) ∧ Others p k (k.update p f) := by
  refine h.update (.refl k) h.inv.queued h.inv.served (.refl _) hs ?_ fun hd j hj => ?_
  · rw [slots_keep k p hf]
    exact h.inv.counts
  · rw [hm]
    exact h.inv.marks j h.get hd (hf P ▸ hj)

/-- The caller after a slot was set. -/
def withSlot (P : Process) (i : Fin maxFdSize) (file : Option Nat) (marked : Bool) : Process :=
  { P with files := P.files.set i file i.isLt, closeOnExec := P.closeOnExec.set i marked i.isLt }

/-- The caller after a slot was marked, or its mark taken away. -/
def withMark (P : Process) (i : Fin maxFdSize) (marked : Bool) : Process :=
  { P with closeOnExec := P.closeOnExec.set i marked i.isLt }

/-- Only the slot that is set may become empty, and its mark is known. -/
theorem withSlot_marks (h : Runs k p P) (hs : P.state ≠ .dead) {file : Option Nat} {marked : Bool}
    (hm : file = none → marked = false) (hj : (withSlot P i file marked).files.get j = none) :
    (withSlot P i file marked).closeOnExec.get j = false := by
  unfold withSlot at hj ⊢
  by_cases hji : j = i
  · subst hji
    rw [Vector.get_set_eq] at hj
    rw [Vector.get_set_eq]
    exact hm hj
  · rw [Vector.get_set_ne _ _ hji] at hj
    rw [Vector.get_set_ne _ _ hji]
    exact h.inv.marks j h.get hs hj

/-! ## Closing, sharing and new files -/

theorem Runs.closeSlot (h : Runs k p P) (hf : P.files.get i = some f) : ∃ k',
    k.closeSlot p i f = .ok k' ∧ Runs k' p (withSlot P i none false) ∧ Others p k k' := by
  obtain ⟨rest, hsplit, _⟩ := slots_split h.get i
  have hcounts := h.inv.counts
  rw [hsplit, hf, slotRef] at hcounts
  obtain ⟨k1, hrel, hcounts'⟩ := releaseFile_counts hcounts
  obtain ⟨hq, hr⟩ := releaseFile_roused h.inv.queued hrel
  have hp1 : k1.processes.get p = some P := rel_get hr.rel h.get h.awake
  obtain ⟨rest', hsplit', hset⟩ := slots_split hp1 i
  have hrest : rest' = rest := by
    rw [hr.slots, hsplit] at hsplit'
    exact (add_left_cancel hsplit').symm
  have hupdate := h.update (f := fun P => withSlot P i none false) hr hq
    (releaseFile_served hcounts h.inv.served hrel) (releaseFile_kept hcounts hrel) rfl
    (by rw [hset _ none rfl, hrest, slotRef, zero_add]; exact hcounts')
    fun hd j hj => withSlot_marks h hd (fun _ => rfl) hj
  refine ⟨_, ?_, hupdate⟩
  unfold Kernel.closeSlot
  rw [hrel]
  exact congrArg Except.ok (update_update k1 p _ _)

/-- The mark that a slot has after `flags` were looked at. -/
def markOf (P : Process) (i : Fin maxFdSize) (flags : Nat) : Bool :=
  if flags &&& oCloexec ≠ 0 then true else P.closeOnExec.get i

theorem set_get {α : Type*} {n : Nat} (v : Vector α n) (i : Fin n) : v.set i (v.get i) i.isLt = v :=
  Vector.set_getElem_self i.isLt

theorem markCloexec_eq (k : Kernel) (p : Nat) (i : Fin maxFdSize) (flags : Nat) :
    k.markCloexec p i flags = k.update p fun P => withMark P i (markOf P i flags) := by
  unfold markCloexec markOf withMark
  split
  · rfl
  · simp only [set_get]
    exact (update_id k p).symm

theorem Runs.share (h : Runs k p P) (hf : f ∈ k.slots) (hfree : P.files.get i = none) (flags : Nat) :
    ∃ k', k.share p i f flags = .ok k' ∧ Runs k' p (withSlot P i (some f) (markOf P i flags))
      ∧ Others p k k' := by
  obtain ⟨k1, hcount, hcounts⟩ := countupFile_counts h.inv.counts hf
  obtain ⟨hkept, hserved⟩ := countupFile_kept hcount
  obtain ⟨files, pipes, rfl⟩ := countupFile_files hcount
  obtain ⟨rest, hsplit, hset⟩ := slots_split h.get i
  rw [hfree, slotRef, zero_add] at hsplit
  have hr : k.Roused { k with files := files, pipes := pipes } :=
    .of_eq rfl rfl ⟨rfl, rfl, rfl, rfl, rfl, rfl⟩
  have hq : Queued { k with files := files, pipes := pipes } :=
    ⟨h.inv.queued.blocked, h.inv.queued.unique, h.inv.queued.nodup⟩
  have hslots : (Kernel.update { k with files := files, pipes := pipes } p
      fun P => withSlot P i (some f) (markOf P i flags)).slots = f ::ₘ k.slots := by
    rw [hsplit]
    exact hset (fun P => withSlot P i (some f) (markOf P i flags)) (some f) rfl
  refine ⟨_, ?_, h.update (f := fun P => withSlot P i (some f) (markOf P i flags)) hr hq
    (hserved h.inv.served) hkept rfl (hslots ▸ hcounts) fun hd j hj => withSlot_marks h hd (fun h => absurd h (by simp)) hj⟩
  unfold Kernel.share
  rw [hcount]
  refine congrArg Except.ok ?_
  rw [markCloexec_eq]
  exact update_update _ p _ _

theorem slot_eq (hp : k.processes.get p = some P) (i : Fin maxFdSize) : k.slot p i = P.files.get i := by
  simp [slot, hp]

/-- A slot that is found free is empty. -/
theorem freeSlot_spec (hp : k.processes.get p = some P) {start : Nat} (h : k.freeSlot p start = some i) :
    P.files.get i = none := by
  have hprop := List.find?_some h
  rw [slot_eq hp, Bool.and_eq_true, Option.isNone_iff_eq_none] at hprop
  exact hprop.2

theorem Runs.allocFile (h : Runs k p P) : k.allocFile p = none ∨ ∃ i k',
    k.allocFile p = some (i, k.files.next, k') ∧ P.files.get i = none
      ∧ Runs k' p (withSlot P i (some k.files.next) (P.closeOnExec.get i)) ∧ Others p k k'
      ∧ k'.files = k.files.alloc ⟨.unused, 0, 0, 1⟩ ∧ k'.pipes = k.pipes := by
  unfold Kernel.allocFile
  cases hfree : k.freeSlot p 0 with
  | none => exact .inl rfl
  | some i =>
    have hnone := freeSlot_spec h.get hfree
    obtain ⟨rest, hsplit, hset⟩ := slots_split h.get i
    rw [hnone, slotRef, zero_add] at hsplit
    have hr : k.Roused { k with files := k.files.alloc ⟨.unused, 0, 0, 1⟩ } :=
      .of_eq rfl rfl ⟨rfl, rfl, rfl, rfl, rfl, rfl⟩
    have hq : Queued { k with files := k.files.alloc ⟨.unused, 0, 0, 1⟩ } :=
      ⟨h.inv.queued.blocked, h.inv.queued.unique, h.inv.queued.nodup⟩
    have hslots : (Kernel.update { k with files := k.files.alloc ⟨.unused, 0, 0, 1⟩ } p
        fun P => { P with files := P.files.set i (some k.files.next) }).slots
        = k.files.next ::ₘ k.slots := by
      rw [hsplit]
      exact hset (fun P => { P with files := P.files.set i (some k.files.next) }) _ rfl
    have hcounts : Counts (k.files.alloc ⟨.unused, 0, 0, 1⟩) k.pipes (k.files.next ::ₘ k.slots) := by
      exact h.inv.counts.alloc ⟨.unused, 0, 0, 1⟩ Nat.one_pos fun q => by simp
    have hP : withSlot P i (some k.files.next) (P.closeOnExec.get i)
        = { P with files := P.files.set i (some k.files.next) } := by
      unfold withSlot
      rw [set_get]
    have hupdate := h.update (f := fun P => { P with files := P.files.set i (some k.files.next) })
      hr hq h.inv.served (.alloc _ _) rfl (hslots ▸ hcounts) fun hd j hj => by
        rw [← hP] at hj ⊢
        exact withSlot_marks h hd (fun h => absurd h (by simp)) hj
    exact .inr ⟨i, _, rfl, hnone, hP ▸ hupdate.1, hupdate.2, rfl, rfl⟩

/-- A file that is given other fields. -/
theorem Runs.setFile (h : Runs k p P) {g : File → File} (hcount : ∀ F, (g F).count = F.count)
    (hends : ∀ F, k.files.get f = some F → (∀ q, F.type ≠ .pipe q ∧ (g F).type ≠ .pipe q)
      ∨ ((g F).type = F.type ∧ (g F).accmode = F.accmode)) :
    Runs (k.setFile f g) p P ∧ Others p k (k.setFile f g) := by
  have hr : k.Roused (k.setFile f g) := .of_eq rfl rfl ⟨rfl, rfl, rfl, rfl, rfl, rfl⟩
  refine ⟨⟨⟨h.inv.counts.setFile hcount hends, ⟨h.inv.queued.blocked, h.inv.queued.unique,
    h.inv.queued.nodup⟩, h.inv.served, h.inv.marks⟩, h.get, h.awake⟩,
    .of_roused hr (.modify fun F hF q e he => ?_) p⟩
  rw [File.isEnd_iff] at he ⊢
  rcases hends F hF with hno | ⟨ht, hm⟩
  · exact absurd he.1 (hno q).1
  · rw [ht, hm]
    exact he

/-- A slot in use is marked, or a mark is taken away. -/
theorem Runs.setCloexec (h : Runs k p P) {marked : Bool} (hm : P.files.get i = none → marked = false) :
    Runs (k.setCloexec p i marked) p (withMark P i marked) ∧ Others p k (k.setCloexec p i marked) := by
  have hkeep : (k.setCloexec p i marked).slots = k.slots := slots_keep k p fun _ => rfl
  refine h.update (.refl k) h.inv.queued h.inv.served (.refl _) rfl ?_ fun hd j hj => ?_
  · exact hkeep ▸ h.inv.counts
  · by_cases hji : j = i
    · subst hji
      rw [Vector.get_set_eq]
      exact hm hj
    · rw [Vector.get_set_ne _ _ hji]
      exact h.inv.marks j h.get hd hj

theorem Runs.markCloexec (h : Runs k p P) (hf : P.files.get i ≠ none) (flags : Nat) :
    Runs (k.markCloexec p i flags) p (withMark P i (markOf P i flags))
      ∧ Others p k (k.markCloexec p i flags) := by
  unfold Kernel.markCloexec markOf
  split
  · exact h.setCloexec fun h => absurd h hf
  · unfold withMark
    rw [set_get]
    exact ⟨h, .refl p k⟩

/-! ## The calls -/

theorem getFile_spec (hp : k.processes.get p = some P) (fd : Int) :
    (∃ i f, slotOf fd = some i ∧ P.files.get i = some f ∧ k.getFile p fd = some (i, f))
      ∨ k.getFile p fd = none := by
  unfold getFile
  cases hi : slotOf fd with
  | none => exact .inr rfl
  | some i =>
    simp only [Option.bind_eq_bind, Option.bind_some, slot_eq hp]
    cases hf : P.files.get i with
    | none => exact .inr rfl
    | some f => exact .inl ⟨i, f, rfl, hf, rfl⟩

theorem slotOf_fin (i : Fin maxFdSize) : slotOf i = some i := by
  unfold slotOf
  rw [dif_pos ⟨by omega, by omega⟩]
  rfl

theorem slotOf_eq {fd : Int} (h : slotOf fd = some i) : (i : Int) = fd := by
  unfold slotOf at h
  split at h
  · cases h
    show ((fd.toNat : Nat) : Int) = fd
    omega
  · cases h

theorem slotOf_ne {fd fd' : Int} (hi : slotOf fd = some i) (hj : slotOf fd' = some j)
    (hne : fd ≠ fd') : j ≠ i ∧ (j : Int) = fd' := by
  refine ⟨?_, slotOf_eq hj⟩
  rintro rfl
  exact hne ((slotOf_eq hi).symm.trans (slotOf_eq hj))

/-- The result of a call that fills a slot: it fails and leaves its caller as it was, or
returns the descriptor of the slot, which is marked if the flags say so. -/
inductive Filled (P : Process) (flags : Nat) : Int → Process → Prop
  | failed {r : Int} : r < 0 → Filled P flags r P
  | filled {i : Fin maxFdSize} {f : Nat} :
      Filled P flags i (withSlot P i (some f) (decide (flags &&& oCloexec ≠ 0)))

/-- `process_close` of a slot in use. -/
theorem Runs.processClose (h : Runs k p P) (hf : P.files.get i = some f) : ∃ k',
    k.processClose p i = .ok (0, k') ∧ Runs k' p (withSlot P i none false) ∧ Others p k k' := by
  obtain ⟨k', hk', hruns, hothers⟩ := h.closeSlot hf
  refine ⟨k', ?_, hruns, hothers⟩
  unfold Kernel.processClose
  rcases getFile_spec h.get i with ⟨j, g, hj, hg, hget⟩ | hget
  · rw [slotOf_fin] at hj
    cases hj
    rw [hf] at hg
    cases hg
    rw [hget]
    simp only
    rw [hk']
    rfl
  · unfold getFile at hget
    simp [slotOf_fin, slot_eq h.get, hf] at hget

theorem processClose_empty (hp : k.processes.get p = some P) (hf : P.files.get i = none) :
    k.processClose p i = .ok (ebadf, k) := by
  have hget : k.getFile p i = none := by
    unfold getFile
    simp [slotOf_fin, slot_eq hp, hf]
  unfold Kernel.processClose
  rw [hget]

/-- `process_close` of any descriptor. -/
theorem Runs.processClose_any (h : Runs k p P) (fd : Int) : ∃ r k' P',
    k.processClose p fd = .ok (r, k') ∧ Runs k' p P' ∧ Others p k k'
      ∧ ((r < 0 ∧ P' = P) ∨ ∃ i : Fin maxFdSize, r = 0 ∧ (i : Int) = fd ∧ P' = withSlot P i none false) := by
  rcases getFile_spec h.get fd with ⟨i, f, hi, hf, _⟩ | hget
  · obtain ⟨k', hk', hruns, ho⟩ := h.processClose hf
    rw [slotOf_eq hi] at hk'
    exact ⟨0, k', _, hk', hruns, ho, .inr ⟨i, rfl, slotOf_eq hi, rfl⟩⟩
  · refine ⟨ebadf, k, P, ?_, h, .refl p k, .inl ⟨by decide, rfl⟩⟩
    unfold Kernel.processClose
    rw [hget]

theorem withSlot_withSlot (P : Process) (i : Fin maxFdSize) (a b : Option Nat) (c d : Bool) :
    withSlot (withSlot P i a c) i b d = withSlot P i b d := by
  simp [withSlot]

theorem withSlot_same {a : Option Nat} {c : Bool} (ha : P.files.get i = a)
    (hc : P.closeOnExec.get i = c) : withSlot P i a c = P := by
  subst ha hc
  unfold withSlot
  rw [set_get, set_get]

theorem withSlot_get (P : Process) (i : Fin maxFdSize) (a : Option Nat) (c : Bool) :
    (withSlot P i a c).files.get i = a := Vector.get_set_eq ..

/-- A call that fails leaves the slot that it took empty again. -/
theorem Runs.abandon {a : Nat} {c : Bool} (h : Runs k p (withSlot P i (some a) c))
    (hf : P.files.get i = none) (hm : P.closeOnExec.get i = false) (r : Int) : ∃ k',
    k.abandon p i r = .ok (r, k') ∧ Runs k' p P ∧ Others p k k' := by
  obtain ⟨k', hk', hruns, hothers⟩ := h.processClose (withSlot_get P i (some a) c)
  rw [withSlot_withSlot, withSlot_same hf hm] at hruns
  refine ⟨k', ?_, hruns, hothers⟩
  unfold Kernel.abandon
  rw [hk']
  rfl

/-- The flags and the type of a new file. -/
theorem Runs.setUnused {a : Nat} {n c : Nat} (h : Runs k p P) (hf : k.files.get a = some ⟨.unused, n, 0, c⟩)
    {g : File → File} (hcount : ∀ F, (g F).count = F.count)
    (ht : ∀ q, (g ⟨.unused, n, 0, c⟩).type ≠ .pipe q) :
    Runs (k.setFile a g) p P ∧ Others p k (k.setFile a g)
      ∧ (k.setFile a g).files.get a = some (g ⟨.unused, n, 0, c⟩) := by
  have hset := h.setFile (f := a) hcount fun F hF => by
    rw [hf] at hF
    cases hF
    exact .inl fun q => ⟨by simp, ht q⟩
  exact ⟨hset.1, hset.2, Store.modify_self.trans (by rw [hf]; rfl)⟩

/-- A slot that was not marked is marked if the flags say so. -/
theorem markOf_clear (hm : P.closeOnExec.get i = false) (flags : Nat) :
    markOf P i flags = decide (flags &&& oCloexec ≠ 0) := by
  unfold markOf
  split
  · simp_all
  · simp_all

theorem withMark_withSlot (P : Process) (i : Fin maxFdSize) (a : Option Nat) (c m : Bool) :
    withMark (withSlot P i a c) i m = withSlot P i a m := by
  simp [withMark, withSlot]

theorem withMark_withSlot_ne (P : Process) (hij : i ≠ j) (a : Option Nat) (c m : Bool) :
    withMark (withSlot P j a c) i m = withSlot (withMark P i m) j a c := by
  unfold withMark withSlot
  rw [Vector.set_comm _ _ (Fin.val_ne_of_ne (Ne.symm hij))]

theorem Runs.processOpen (h : Runs k p P) (hd : P.state ≠ .dead) (flags : Nat) (created : Int)
    (found : Option (Nat × Bool)) : ∃ r k' P', k.processOpen p flags created found = .ok (r, k')
      ∧ Runs k' p P' ∧ Others p k k' ∧ Filled P flags r P' := by
  unfold Kernel.processOpen
  rcases h.allocFile with hnone | ⟨i, k1, halloc, hfree, h1, ho1, hfiles, _⟩
  · rw [hnone]
    exact ⟨emfile, k, P, rfl, h, .refl p k, .failed (by decide)⟩
  rw [halloc]
  simp only
  have hm := h.inv.marks i h.get hd hfree
  have hfile : k1.files.get k.files.next = some ⟨.unused, 0, 0, 1⟩ := by
    rw [hfiles, Store.alloc_self]
  obtain ⟨h2, ho2, hfile2⟩ := h1.setUnused (g := fun F =>
    { F with flags := flags &&& (fileStatusFlags ||| oAccmode) }) hfile (fun _ => rfl) fun q => by simp
  have hfail : ∀ r : Int, r < 0 → ∃ r' k' P',
      (k1.setFile k.files.next fun F => { F with flags := flags &&& (fileStatusFlags ||| oAccmode) }).abandon
        p i r = .ok (r', k') ∧ Runs k' p P' ∧ Others p k k' ∧ Filled P flags r' P' := by
    intro r hr
    obtain ⟨k3, hk3, h3, ho3⟩ := h2.abandon hfree hm r
    exact ⟨r, k3, P, hk3, h3, (ho1.trans ho2).trans ho3, .failed hr⟩
  split
  · rename_i hcreat
    exact hfail created hcreat.2
  cases found with
  | none => exact hfail enoent (by decide)
  | some found =>
    obtain ⟨dentry, isDir⟩ := found
    simp only
    split
    · exact hfail eisdir (by decide)
    · obtain ⟨h3, ho3, _⟩ := h2.setUnused (g := fun F => { F with type := .inode dentry }) hfile2
        (fun _ => rfl) fun q => by simp
      obtain ⟨h4, ho4⟩ := h3.markCloexec (i := i) (by rw [withSlot_get]; simp) flags
      refine ⟨i, _, _, rfl, h4, ((ho1.trans ho2).trans ho3).trans ho4, ?_⟩
      have hclear : (withSlot P i (some k.files.next) (P.closeOnExec.get i)).closeOnExec.get i = false := by
        rw [← hm]
        exact Vector.get_set_eq ..
      rw [withMark_withSlot, markOf_clear hclear]
      exact .filled

/-- A share of a file that the caller has open, in a slot that is free. -/
theorem Runs.fill (h : Runs k p P) (hd : P.state ≠ .dead) (hf : f ∈ k.slots)
    (hfree : P.files.get i = none) (flags : Nat) : ∃ k', k.share p i f flags = .ok k'
      ∧ Runs k' p (withSlot P i (some f) (decide (flags &&& oCloexec ≠ 0))) ∧ Others p k k' := by
  rw [← markOf_clear (h.inv.marks i h.get hd hfree) flags]
  exact h.share hf hfree flags

theorem Runs.processDupfd (h : Runs k p P) (hd : P.state ≠ .dead) (fd start : Int) (flags : Nat) :
    ∃ r k' P', k.processDupfd p fd start flags = .ok (r, k') ∧ Runs k' p P' ∧ Others p k k'
      ∧ Filled P flags r P' := by
  unfold Kernel.processDupfd
  rcases getFile_spec h.get fd with ⟨i, f, _, hf, hget⟩ | hget
  · rw [hget]
    cases slotOf start with
    | none => exact ⟨einval, k, P, rfl, h, .refl p k, .failed (by decide)⟩
    | some start =>
      simp only
      cases hfree : k.freeSlot p start with
      | none => exact ⟨emfile, k, P, rfl, h, .refl p k, .failed (by decide)⟩
      | some j =>
        obtain ⟨k', hk', hruns, ho⟩ := h.fill hd (mem_slots h.get hf)
          (freeSlot_spec h.get hfree) flags
        refine ⟨j, k', _, ?_, hruns, ho, .filled⟩
        simp only
        rw [hk']
        rfl
  · rw [hget]
    exact ⟨ebadf, k, P, rfl, h, .refl p k, .failed (by decide)⟩

/-- The file of one slot takes the place of what another one holds. -/
theorem Runs.replace (h : Runs k p P) (hd : P.state ≠ .dead) (hf : P.files.get i = some f)
    (hij : j ≠ i) (flags : Nat) : ∃ k', k.replace p j f flags = .ok (j, k')
      ∧ Runs k' p (withSlot P j (some f) (decide (flags &&& oCloexec ≠ 0))) ∧ Others p k k' := by
  -- the slot is empty, and the file still open in the other one
  have hclose : ∃ r k1, k.processClose p j = .ok (r, k1) ∧ Runs k1 p (withSlot P j none false)
      ∧ Others p k k1 := by
    cases hj : P.files.get j with
    | none =>
      have hm := h.inv.marks j h.get hd hj
      exact ⟨ebadf, k, processClose_empty h.get hj, by rw [withSlot_same hj hm]; exact h, .refl p k⟩
    | some g =>
      obtain ⟨k1, hk1, h1, ho1⟩ := h.processClose hj
      exact ⟨0, k1, hk1, h1, ho1⟩
  obtain ⟨r, k1, hk1, h1, ho1⟩ := hclose
  have hf1 : (withSlot P j none false).files.get i = some f := by
    rw [← hf]
    exact Vector.get_set_ne _ _ (Ne.symm hij)
  obtain ⟨k2, hk2, h2, ho2⟩ := h1.fill hd (mem_slots h1.get hf1) (withSlot_get P j none false) flags
  rw [withSlot_withSlot] at h2
  refine ⟨k2, ?_, h2, ho1.trans ho2⟩
  unfold Kernel.replace
  rw [hk1]
  show (do let k ← k1.share p j f flags; Except.ok ((j : Int), k)) = _
  rw [hk2]
  rfl

/-- `dup2` fails, leaves all as it is, or replaces what the new descriptor held. -/
theorem Runs.processDup2 (h : Runs k p P) (hd : P.state ≠ .dead) (oldfd newfd : Int) :
    ∃ r k' P', k.processDup2 p oldfd newfd = .ok (r, k') ∧ Runs k' p P' ∧ Others p k k'
      ∧ ((r < 0 ∧ P' = P) ∨ (oldfd = newfd ∧ r = newfd ∧ P' = P)
        ∨ ∃ (i : Fin maxFdSize) (f : Nat), oldfd ≠ newfd ∧ (i : Int) = newfd ∧ r = i
          ∧ P' = withSlot P i (some f) false) := by
  unfold Kernel.processDup2
  rcases getFile_spec h.get oldfd with ⟨i, f, hi, hf, hget⟩ | hget
  · rw [hget]
    cases hj : slotOf newfd with
    | none => exact ⟨ebadf, k, P, rfl, h, .refl p k, .inl ⟨by decide, rfl⟩⟩
    | some j =>
      simp only
      split
      · exact ⟨newfd, k, P, rfl, h, .refl p k, .inr (.inl ⟨‹_›, rfl, rfl⟩)⟩
      · rename_i hne
        obtain ⟨hji, hfd⟩ := slotOf_ne hi hj hne
        obtain ⟨k', hk', hruns, ho⟩ := h.replace hd hf hji 0
        refine ⟨j, k', _, hk', hruns, ho, .inr (.inr ⟨j, f, hne, hfd, rfl, ?_⟩)⟩
        rfl
  · rw [hget]
    exact ⟨ebadf, k, P, rfl, h, .refl p k, .inl ⟨by decide, rfl⟩⟩

theorem Runs.processDup3 (h : Runs k p P) (hd : P.state ≠ .dead) (oldfd newfd : Int) (flags : Nat) :
    ∃ r k' P', k.processDup3 p oldfd newfd flags = .ok (r, k') ∧ Runs k' p P' ∧ Others p k k'
      ∧ ((r < 0 ∧ P' = P) ∨ ∃ (i : Fin maxFdSize) (f : Nat), (i : Int) = newfd ∧ r = i
          ∧ P' = withSlot P i (some f) (decide (flags &&& oCloexec ≠ 0))) := by
  unfold Kernel.processDup3
  rcases getFile_spec h.get oldfd with ⟨i, f, hi, hf, hget⟩ | hget
  · rw [hget]
    cases hj : slotOf newfd with
    | none => exact ⟨ebadf, k, P, rfl, h, .refl p k, .inl ⟨by decide, rfl⟩⟩
    | some j =>
      simp only
      split
      · exact ⟨einval, k, P, rfl, h, .refl p k, .inl ⟨by decide, rfl⟩⟩
      · rename_i hne
        obtain ⟨hji, hfd⟩ := slotOf_ne hi hj hne
        obtain ⟨k', hk', hruns, ho⟩ := h.replace hd hf hji flags
        exact ⟨j, k', _, hk', hruns, ho, .inr ⟨j, f, hfd, rfl, rfl⟩⟩
  · rw [hget]
    exact ⟨ebadf, k, P, rfl, h, .refl p k, .inl ⟨by decide, rfl⟩⟩

/-! ## Pipes -/

/-- The access mode of the flags of an end. -/
theorem accmode_end (e : PipeEnd) (flags : Nat) :
    (e.mode ||| oAppend ||| (flags &&& pipe2Flags)) &&& oAccmode = e.mode := by
  rw [Nat.and_or_distrib_right, Nat.and_or_distrib_right, Nat.and_assoc]
  have h1 : pipe2Flags &&& oAccmode = 0 := by decide
  have h2 : oAppend &&& oAccmode = 0 := by decide
  rw [h1, h2, Nat.and_zero]
  cases e with
  | reading => decide
  | writing => decide

/-- The result of `pipe2`: it fails and leaves its caller as it was, or fills two slots. -/
inductive Piped (P : Process) (flags : Nat) :
    Int → Option (Fin maxFdSize × Fin maxFdSize) → Process → Prop
  | failed {r : Int} : r < 0 → Piped P flags r none P
  | piped {i j : Fin maxFdSize} {f g : Nat} : i ≠ j → Piped P flags 0 (some (i, j))
      (withSlot (withSlot P i (some f) (decide (flags &&& oCloexec ≠ 0))) j (some g)
        (decide (flags &&& oCloexec ≠ 0)))

theorem Runs.processPipe2 (h : Runs k p P) (hd : P.state ≠ .dead) (flags : Nat) : ∃ r fds k' P',
    k.processPipe2 p flags = .ok (r, fds, k') ∧ Runs k' p P' ∧ Others p k k' ∧ Piped P flags r fds P' := by
  unfold Kernel.processPipe2
  split
  · exact ⟨einval, none, k, P, rfl, h, .refl p k, .failed (by decide)⟩
  rcases h.allocFile with hnone | ⟨i, k1, halloc, hfree, h1, ho1, hfiles, hpipes⟩
  · rw [hnone]
    exact ⟨emfile, none, k, P, rfl, h, .refl p k, .failed (by decide)⟩
  rw [halloc]
  simp only
  have hm := h.inv.marks i h.get hd hfree
  rcases h1.allocFile with hnone | ⟨j, k2, halloc2, hfree2, h2, ho2, hfiles2, hpipes2⟩
  · rw [hnone]
    obtain ⟨k3, hk3, h3, ho3⟩ := h1.abandon hfree hm emfile
    refine ⟨emfile, none, k3, P, ?_, h3, ho1.trans ho3, .failed (by decide)⟩
    rw [hk3]
    rfl
  rw [halloc2]
  simp only
  have hij : i ≠ j := by
    rintro rfl
    rw [withSlot_get] at hfree2
    cases hfree2
  have hm2 := h1.inv.marks j h1.get hd hfree2
  -- the two files are new
  have hb : k2.files.get k1.files.next = some ⟨.unused, 0, 0, 1⟩ := by rw [hfiles2, Store.alloc_self]
  have ha : k2.files.get k.files.next = some ⟨.unused, 0, 0, 1⟩ := by
    rw [hfiles2]
    exact Store.alloc_of_some (by rw [hfiles, Store.alloc_self])
  have hab : k1.files.next ≠ k.files.next := by
    rw [hfiles]
    exact Nat.succ_ne_self _
  -- so far the processes are those after the second file was made
  generalize hk3 : ({ k2 with pipes := k2.pipes.alloc ⟨1, 1⟩ }.makeEnd k.files.next k2.pipes.next
    (oRdonly ||| oAppend ||| (flags &&& pipe2Flags))).makeEnd k1.files.next k2.pipes.next
    (oWronly ||| oAppend ||| (flags &&& pipe2Flags)) = k3
  have h3 : Runs k3 p (withSlot (withSlot P i (some k.files.next) (P.closeOnExec.get i)) j
      (some k1.files.next) ((withSlot P i (some k.files.next) (P.closeOnExec.get i)).closeOnExec.get j)) := by
    subst hk3
    refine ⟨⟨h2.inv.counts.makeEnds (PipeEnd.pick k.files.next k1.files.next)
      (fun e => e.mode ||| oAppend ||| (flags &&& pipe2Flags)) (fun {e e'} he => ?_) (fun e => ?_)
      (fun e => accmode_end e flags) (fun e => ?_) fun c hc =>
        (Store.modify_ne (hc .writing)).trans (Store.modify_ne (hc .reading)),
      ⟨h2.inv.queued.blocked, h2.inv.queued.unique, h2.inv.queued.nodup⟩,
      h2.inv.served.mono (fun _ _ h => h) fun hQ => ⟨_, Store.alloc_of_some hQ, fun _ => Nat.le_refl _⟩,
      h2.inv.marks⟩, h2.get, h2.awake⟩
    · cases e <;> cases e'
      · rfl
      · exact absurd he.symm hab
      · exact absurd he hab
      · rfl
    · cases e
      · exact ha
      · exact hb
    · cases e
      · exact (Store.modify_ne hab.symm).trans (Store.modify_self_of ha rfl)
      · exact Store.modify_self_of ((Store.modify_ne hab).trans hb) rfl
  have ho3 : Others p k2 k3 := by
    subst hk3
    have hunused : ∀ {F : File}, F.type = .unused → ∀ q e, F.isEnd q e ≠ true := by
      intro F hF q e he
      rw [(File.isEnd_iff.mp he).1] at hF
      cases hF
    refine ⟨rfl, fun q _ => Store.Rel.refl Process.Roused.refl _ q, fun q => List.Sublist.refl _,
      .trans (.modify fun F hF q e he => ?_) (.modify fun F hF q e he => ?_)⟩
    · rw [ha] at hF
      cases hF
      exact absurd he (hunused rfl q e)
    · rw [Store.modify_ne hab, hb] at hF
      cases hF
      exact absurd he (hunused rfl q e)
  rw [hm2] at h3
  have hi : ∀ c d, (withSlot (withSlot P i (some k.files.next) c) j (some k1.files.next) d).files.get i
      = some k.files.next := by
    intro c d
    exact (Vector.get_set_ne _ _ hij).trans (withSlot_get ..)
  have hclear : ∀ d, (withSlot (withSlot P i (some k.files.next) (P.closeOnExec.get i)) j
      (some k1.files.next) d).closeOnExec.get i = false := by
    intro d
    exact ((Vector.get_set_ne _ _ hij).trans (Vector.get_set_eq ..)).trans hm
  obtain ⟨h4, ho4⟩ := h3.markCloexec (i := i) (by rw [hi]; simp) flags
  rw [markOf_clear (hclear false), withMark_withSlot_ne _ hij, withMark_withSlot] at h4
  obtain ⟨h5, ho5⟩ := h4.markCloexec (i := j) (by rw [withSlot_get]; simp) flags
  rw [markOf_clear (show _ = false from Vector.get_set_eq ..), withMark_withSlot] at h5
  exact ⟨0, some (i, j), _, _, rfl, h5, (((ho1.trans ho2).trans ho3).trans ho4).trans ho5,
    .piped hij⟩

/-! ## Flags -/

/-- The result of `fcntl64`. -/
inductive Controlled (P : Process) (fd cmd : Int) (arg : Nat) : Int → Process → Prop
  | failed {r : Int} : r < 0 → Controlled P fd cmd arg r P
  | dup {i : Fin maxFdSize} {f : Nat} : cmd = 0 →
      Controlled P fd cmd arg i (withSlot P i (some f) false)
  | marked {i : Fin maxFdSize} : cmd = 2 → (i : Int) = fd →
      Controlled P fd cmd arg 0 (withMark P i (decide (arg &&& fdCloexec ≠ 0)))
  | other {r : Int} : cmd ≠ 0 → cmd ≠ 2 → Controlled P fd cmd arg r P

/-- `F_SETFL` keeps the access mode. -/
theorem accmode_setfl (arg flags : Nat) :
    ((arg &&& fileStatusFlags) ||| (flags &&& oAccmode)) &&& oAccmode = flags &&& oAccmode := by
  have h : fileStatusFlags &&& oAccmode = 0 := by decide
  rw [Nat.and_or_distrib_right, Nat.and_assoc, h, Nat.and_zero, Nat.zero_or, Nat.and_assoc,
    Nat.and_self]

theorem Runs.processFcntl64 (h : Runs k p P) (hd : P.state ≠ .dead) (fd cmd : Int) (arg : Nat) :
    ∃ r k' P', k.processFcntl64 p fd cmd arg = .ok (r, k') ∧ Runs k' p P' ∧ Others p k k'
      ∧ Controlled P fd cmd arg r P' := by
  unfold Kernel.processFcntl64
  rcases getFile_spec h.get fd with ⟨i, f, hi, hf, hget⟩ | hget
  · rw [hget]
    simp only
    split
    · obtain ⟨r, k', P', hk', hruns, ho, hfill⟩ := h.processDupfd hd fd (BitVec.ofNat 32 arg).toInt 0
      refine ⟨r, k', P', hk', hruns, ho, ?_⟩
      cases hfill with
      | failed hr => exact .failed hr
      | filled =>
        exact .dup rfl
    · exact ⟨_, k, P, rfl, h, .refl p k, .other (by decide) (by decide)⟩
    · obtain ⟨h1, ho1⟩ := @Runs.setCloexec _ _ _ i h (decide (arg &&& fdCloexec ≠ 0))
        fun hn => absurd hn (by rw [hf]; simp)
      exact ⟨0, _, _, rfl, h1, ho1, .marked rfl (slotOf_eq hi)⟩
    · obtain ⟨F, hF⟩ := h.inv.counts.live (mem_slots h.get hf)
      rw [hF]
      exact ⟨_, k, P, rfl, h, .refl p k, .other (by decide) (by decide)⟩
    · obtain ⟨h1, ho1⟩ := h.setFile (f := f) (g := fun F => { F with
        flags := (arg &&& fileStatusFlags) ||| (F.flags &&& oAccmode) }) (fun _ => rfl)
        fun F _ => .inr ⟨rfl, accmode_setfl arg F.flags⟩
      exact ⟨0, _, P, rfl, h1, ho1, .other (by decide) (by decide)⟩
    · exact ⟨einval, k, P, rfl, h, .refl p k, .failed (by decide)⟩
  · rw [hget]
    exact ⟨ebadf, k, P, rfl, h, .refl p k, .failed (by decide)⟩

/-! ## Programs and exits -/

/-- Closing a slot by hand, as `process_exec` does. -/
theorem closeMarked_cons (k : Kernel) (p : Nat) (i : Fin maxFdSize) (is : List (Fin maxFdSize)) :
    k.closeMarked p (i :: is) = match (k.processes.get p).bind fun P =>
        if P.closeOnExec.get i then P.files.get i else none with
      | none => k.closeMarked p is
      | some file => k.closeSlot p i file >>= fun k => k.closeMarked p is := by
  rw [closeMarked]
  generalize ((k.processes.get p).bind fun P => if P.closeOnExec.get i then P.files.get i else none)
    = slot
  cases slot with
  | none => rfl
  | some file =>
    unfold Kernel.closeSlot
    simp only
    cases k.releaseFile file with
    | error e => rfl
    | ok k1 =>
      have hupdate : (k1.setSlot p i none).setCloexec p i false
          = k1.update p fun P => withSlot P i none false := update_update k1 p _ _
      exact congrArg (fun k => closeMarked k p is) hupdate.symm

/-- The slots that are marked are closed. -/
theorem Runs.closeMarked : ∀ (is : List (Fin maxFdSize)) {k : Kernel} {P : Process}, Runs k p P →
    ∃ k' P', k.closeMarked p is = .ok k' ∧ Runs k' p P' ∧ Others p k k' ∧ P'.state = P.state
      ∧ (∀ j, P.files.get j = none → P'.files.get j = none)
      ∧ ∀ j ∈ is, P.closeOnExec.get j = true → P'.files.get j = none
  | [], k, P, h => ⟨k, P, rfl, h, .refl p k, rfl, fun _ h => h, fun _ h => absurd h (by simp)⟩
  | i :: is, k, P, h => by
    rw [closeMarked_cons, h.get, Option.bind_some]
    cases hf : (if P.closeOnExec.get i then P.files.get i else none) with
    | none =>
      obtain ⟨k', P', hk', hruns, ho, hs, hempty, hmarked⟩ := Runs.closeMarked is h
      refine ⟨k', P', hk', hruns, ho, hs, hempty, fun j hj hm => ?_⟩
      rcases List.mem_cons.mp hj with rfl | hj
      · rw [if_pos hm] at hf
        exact hempty j hf
      · exact hmarked j hj hm
    | some f =>
      have hopen : P.files.get i = some f := by
        split at hf
        · exact hf
        · cases hf
      obtain ⟨k1, hk1, h1, ho1⟩ := h.closeSlot hopen
      obtain ⟨k', P', hk', hruns, ho, hs, hempty, hmarked⟩ := Runs.closeMarked is h1
      have hkeep : ∀ j, P.files.get j = none → P'.files.get j = none := by
        intro j hj
        refine hempty j ?_
        by_cases hji : j = i
        · rw [hji]
          exact withSlot_get ..
        · exact (Vector.get_set_ne _ _ hji).trans hj
      refine ⟨k', P', ?_, hruns, ho1.trans ho, hs, hkeep, fun j hj hm => ?_⟩
      · simp only
        rw [hk1]
        exact hk'
      · by_cases hji : j = i
        · exact hempty j (by rw [hji]; exact withSlot_get ..)
        · exact hmarked j ((List.mem_cons.mp hj).resolve_left hji)
            ((Vector.get_set_ne _ _ hji).trans hm)

theorem Runs.startProgram (h : Runs k p P) (sp pc : Nat) : ∃ k' P',
    k.startProgram p sp pc = .ok k' ∧ Runs k' p P' ∧ Others p k k' ∧ P'.state = P.state
      ∧ ∀ j, P.closeOnExec.get j = true → P'.files.get j = none := by
  obtain ⟨h1, ho1⟩ := h.keep (f := fun P =>
    { P with signal := { P.signal with actions := resetHandlers P.signal.actions } })
    (fun _ => rfl) rfl rfl
  obtain ⟨k2, P2, hk2, h2, ho2, hs, _, hmarked⟩ := Runs.closeMarked (List.finRange maxFdSize) h1
  obtain ⟨h3, ho3⟩ := h2.keep (f := fun P =>
    { P with context := { ProcessContext.zero with cpsr := 0x10, sp, pc } }) (fun _ => rfl) rfl rfl
  refine ⟨_, _, ?_, h3, (ho1.trans ho2).trans ho3, hs, fun j hj => hmarked j (List.mem_finRange j) hj⟩
  show (Kernel.closeMarked _ p _ >>= fun k => Except.ok (k.update p _)) = _
  rw [hk2]
  rfl

/-- A dead process loses a slot before the file in it is released. -/
theorem Runs.releaseSlot (h : Runs k p P) (hd : P.state = .dead) (hf : P.files.get i = some f) :
    ∃ k', (k.setSlot p i none).releaseFile f = .ok k'
      ∧ Runs k' p { P with files := P.files.set i none i.isLt } ∧ Others p k k' := by
  obtain ⟨rest, hsplit, hset⟩ := slots_split h.get i
  have hslots : (k.setSlot p i none).slots = rest :=
    (hset (fun P => { P with files := P.files.set i none }) none rfl).trans (zero_add rest)
  have hcounts : Counts (k.setSlot p i none).files (k.setSlot p i none).pipes (f ::ₘ rest) := by
    have := h.inv.counts
    rw [hsplit, hf, slotRef] at this
    exact this
  have hget : (k.setSlot p i none).processes.get p = some { P with files := P.files.set i none } :=
    Store.modify_self.trans (by rw [h.get]; rfl)
  obtain ⟨k1, hrel, hcounts'⟩ := releaseFile_counts hcounts
  obtain ⟨hq, hr⟩ := releaseFile_roused (h.inv.queued.awake h.get h.awake _) hrel
  have hothers : Others p k k1 :=
    (Others.update k p _).trans (.of_roused hr (releaseFile_kept hcounts hrel) p)
  have hget1 := rel_get hr.rel hget h.awake
  refine ⟨k1, hrel, ⟨⟨?_, hq, releaseFile_served hcounts h.inv.served hrel,
    fun {q Q} j hQ hs hj => ?_⟩, hget1, h.awake⟩, hothers⟩
  · rw [hr.slots.trans hslots]
    exact hcounts'
  · by_cases hqp : q = p
    · subst hqp
      rw [hget1] at hQ
      cases hQ
      exact absurd hd hs
    · obtain ⟨Q₀, hQ₀, hQ⟩ := hothers.back hqp hQ
      rcases hQ with rfl | ⟨hb, rfl⟩
      · exact h.inv.marks j hQ₀ hs hj
      · exact h.inv.marks (P := Q₀) j hQ₀ (by rw [hb]; simp) hj

theorem Runs.releaseFiles : ∀ (is : List (Fin maxFdSize)) {k : Kernel} {P : Process}, Runs k p P →
    P.state = .dead → ∃ k' P', k.releaseFiles p is = .ok k' ∧ Runs k' p P' ∧ Others p k k'
      ∧ P'.state = .dead
  | [], k, P, h, hd => ⟨k, P, rfl, h, .refl p k, hd⟩
  | i :: is, k, P, h, hd => by
    rw [Kernel.releaseFiles, h.get, Option.bind_some]
    cases hf : P.files.get i with
    | none => exact Runs.releaseFiles is h hd
    | some f =>
      obtain ⟨k1, hk1, h1, ho1⟩ := h.releaseSlot hd hf
      obtain ⟨k', P', hk', hruns, ho, hd'⟩ := Runs.releaseFiles is h1 hd
      refine ⟨k', P', ?_, hruns, ho1.trans ho, hd'⟩
      simp only
      have hk1 : (k.update p fun P => { P with files := P.files.set i none }).releaseFile f
          = .ok k1 := hk1
      rw [hk1]
      exact hk'

/-- Waking changes neither files nor descriptors. -/
theorem Runs.wake (h : Runs k p P) (q : Waitq) :
    Runs (k.processWake q).2 p P ∧ Others p k (k.processWake q).2 := by
  obtain ⟨hq, hrel⟩ := h.inv.queued.wake q
  have hsame : (k.processWake q).2.processes.next = k.processes.next
      ∧ (k.processWake q).2.files = k.files ∧ (k.processWake q).2.pipes = k.pipes := by
    unfold processWake
    split
    · exact ⟨rfl, rfl, rfl⟩
    · exact ⟨rfl, rfl, rfl⟩
  have hslots : (k.processWake q).2.slots = k.slots := hrel.tally hsame.1 fun hr => by
    rcases hr with rfl | ⟨_, rfl⟩
    · rfl
    · rfl
  have hqueues := processWake_queues k q
  refine ⟨⟨⟨?_, hq, ?_, fun {r Q} j hQ hs hj => ?_⟩, rel_get hrel h.get h.awake, h.awake⟩,
    ⟨hsame.1, fun r _ => hrel r, hqueues, hsame.2.1 ▸ .refl _⟩⟩
  · rw [hsame.2.1, hsame.2.2, hslots]
    exact h.inv.counts
  · exact h.inv.served.mono (fun r => (hqueues r).subset)
      fun hQ => ⟨_, hsame.2.2 ▸ hQ, fun _ => Nat.le_refl _⟩
  · obtain ⟨Q₀, hQ₀, hQ⟩ := hrel.back hQ
    rcases hQ with rfl | ⟨hb, rfl⟩
    · exact h.inv.marks j hQ₀ hs hj
    · exact h.inv.marks (P := Q₀) j hQ₀ (by rw [hb]; simp) hj

theorem Runs.processExit (h : Runs k p P) (status : Int) : ∃ k' P',
    k.processExit p status = .ok k' ∧ Runs k' p P' ∧ Others p k k' ∧ P'.state = .dead := by
  have hkeep : (k.update p fun P => { P with state := .dead, exitStatus := status }).slots = k.slots :=
    slots_keep k p fun _ => rfl
  have hget : (k.update p fun P => { P with state := .dead, exitStatus := status }).processes.get p
      = some { P with state := .dead, exitStatus := status } :=
    Store.modify_self.trans (by rw [h.get]; rfl)
  have h1 : Runs (k.update p fun P => { P with state := .dead, exitStatus := status }) p
      { P with state := .dead, exitStatus := status } := by
    refine ⟨⟨hkeep ▸ h.inv.counts, h.inv.queued.awake h.get h.awake _, h.inv.served,
      fun {q Q} j hQ hs hj => ?_⟩, hget, by simp⟩
    obtain ⟨Q₀, hQ₀, rfl⟩ := Store.get_modify hQ
    by_cases hqp : q = p
    · rw [if_pos hqp] at hs
      exact absurd rfl hs
    · rw [if_neg hqp] at hs hj ⊢
      exact h.inv.marks j hQ₀ hs hj
  have ho1 : Others p k (k.update p fun P => { P with state := .dead, exitStatus := status }) :=
    .update k p _
  obtain ⟨k2, P2, hk2, h2, ho2, hd⟩ := Runs.releaseFiles (List.finRange maxFdSize) h1 rfl
  obtain ⟨h3, ho3⟩ := h2.wake .child
  refine ⟨_, P2, ?_, h3, (ho1.trans ho2).trans ho3, hd⟩
  show (Kernel.releaseFiles _ p _ >>= fun k => Except.ok (k.processWake .child).2) = _
  rw [hk2]
  rfl

/-! ## New processes -/

/-- The slots of a table as a list. -/
theorem slots_eq_sum (P : Process) : P.slots = (P.files.toList.map slotRef).sum :=
  Vector.tally_eq_sum ..

theorem countupFiles_counts : ∀ (files : List (Option Nat)) {k : Kernel} {R : Multiset Nat},
    Counts k.files k.pipes R → k.Served → (∀ f, some f ∈ files → f ∈ R) →
    ∃ k', k.countupFiles files = .ok k' ∧ Counts k'.files k'.pipes ((files.map slotRef).sum + R)
      ∧ k'.Served ∧ Kept k.files k'.files
  | [], k, R, h, hs, _ => ⟨k, rfl, by simpa using h, hs, .refl _⟩
  | none :: files, k, R, h, hs, hmem => by
    obtain ⟨k', hk', h', hrest⟩ := countupFiles_counts files h hs
      fun f hf => hmem f (List.mem_cons_of_mem _ hf)
    exact ⟨k', hk', by simpa [slotRef] using h', hrest⟩
  | some f :: files, k, R, h, hs, hmem => by
    obtain ⟨k1, hk1, h1⟩ := countupFile_counts h (hmem f (List.mem_cons_self ..))
    obtain ⟨hkept, hserved⟩ := countupFile_kept hk1
    obtain ⟨k', hk', h', hs', hkept'⟩ := countupFiles_counts files h1 (hserved hs)
      fun g hg => Multiset.mem_cons_of_mem (hmem g (List.mem_cons_of_mem _ hg))
    refine ⟨k', ?_, ?_, hs', hkept.trans hkept'⟩
    · show (k.countupFile f >>= fun k => countupFiles k files) = _
      rw [hk1]
      exact hk'
    · rw [List.map_cons, List.sum_cons, slotRef, add_comm ({f} : Multiset Nat), add_assoc]
      exact h'

/-- The slots after a fork, before the files are counted. -/
theorem forkProcess_slots (hp : k.processes.get p = some P) :
    (k.forkProcess p P).slots = P.slots + k.slots := by
  have hchild : Process.slots (newProcess k.maxId) = 0 := by
    unfold Process.slots newProcess
    exact Finset.sum_eq_zero fun i _ => by simp [slotRef, Vector.get]
  obtain ⟨r, h1, h2, _⟩ := Store.tally_split (s := k.processes.alloc (newProcess k.maxId)) Process.slots
    (Store.alloc_of_some hp)
  obtain ⟨r', h3, h4, _⟩ := Store.tally_split
    (s := (k.processes.alloc (newProcess k.maxId)).modify p fun P =>
      { P with children := k.processes.next :: P.children }) Process.slots
    (p := k.processes.next) (x := newProcess k.maxId)
    (by rw [Store.modify_ne (Nat.ne_of_gt (Store.lt_next hp)), Store.alloc_self])
  have hsum : k.slots = P.slots + r := by
    rw [← h1, Store.tally_alloc, hchild, add_zero]
    rfl
  have hr' : r' = k.slots := by
    rw [h2, hchild, zero_add] at h3
    rw [← h3, hsum]
    rfl
  refine (h4 (forkChild p P)).trans ?_
  rw [hr']
  rfl

/-- **Fork** shares every file of the caller with the child. -/
theorem Runs.processFork (h : Runs k p P) : ∃ r k', k.processFork p = .ok (r, k') ∧ k'.FileInv
    ∧ k'.processes = (k.forkProcess p P).processes ∧ k'.waitqs = k.waitqs ∧ Kept k.files k'.files := by
  have hcounts : Counts (k.forkProcess p P).files (k.forkProcess p P).pipes k.slots := h.inv.counts
  have hserved : (k.forkProcess p P).Served := h.inv.served
  obtain ⟨k1, hk1, hcounts, hserved, hkept⟩ := countupFiles_counts P.files.toList hcounts
    hserved fun f hf => by
    obtain ⟨i, hi, hget⟩ := List.mem_iff_getElem.mp hf
    rw [Vector.length_toList] at hi
    exact mem_slots (i := ⟨i, hi⟩) h.get (by rw [← hget]; rfl)
  obtain ⟨files, pipes, rfl⟩ := countupFiles_files hk1
  have hslots : Kernel.slots { k.forkProcess p P with files := files, pipes := pipes }
      = (P.files.toList.map slotRef).sum + k.slots := by
    rw [← slots_eq_sum, ← forkProcess_slots h.get]
    rfl
  refine ⟨(k.forkProcess p P).maxId - 1, { k.forkProcess p P with files := files, pipes := pipes }, ?_,
    ⟨hslots ▸ hcounts, ?_, hserved, fun {q Q} j hQ hs hj => ?_⟩, rfl, rfl, hkept⟩
  · unfold Kernel.processFork
    rw [h.get]
    simp only
    rw [hk1]
    rfl
  · refine h.inv.queued.sub (fun q => List.Sublist.refl _) fun {q w Q} hmem hQ => ?_
    rw [forkProcess_get h.get, if_neg (Nat.ne_of_lt (Store.lt_next hQ))]
    by_cases hqp : q = p
    · rw [if_pos hqp]
      rw [hqp, h.get] at hQ
      cases hQ
      exact ⟨_, rfl, rfl⟩
    · rw [if_neg hqp]
      exact ⟨Q, hQ, rfl⟩
  · rcases forkProcess_cases h.get hQ with ⟨_, rfl⟩ | ⟨_, rfl⟩ | hQ
    · simp [forkChild, newProcess, Vector.get]
    · exact h.inv.marks (P := P) j h.get hs hj
    · exact h.inv.marks j hQ hs hj

theorem stdin_lt : 0 < maxFdSize := by decide
theorem stdout_lt : 1 < maxFdSize := by decide
theorem stderr_lt : 2 < maxFdSize := by decide

/-- The process that `process_create` makes. -/
def createdProcess (id p tty sp pc : Nat) : Process :=
  { newProcess id with
    parent := p
    context := { ProcessContext.zero with cpsr := 0x10, sp, pc }
    files := (((newProcess id).files.set 0 (some tty) stdin_lt).set 1 (some tty) stdout_lt).set 2
      (some tty) stderr_lt }

theorem processCreate_processes (k : Kernel) (sp pc : Nat) : (k.processCreate sp pc).processes
    = (k.processes.alloc (newProcess k.maxId)).modify k.processes.next fun P =>
      { P with
        parent := k.processes.next
        context := { P.context with cpsr := 0x10, sp, pc }
        files := ((P.files.set 0 (some k.files.next)).set 1 (some k.files.next)).set 2
          (some k.files.next) } := rfl

theorem processCreate_get (k : Kernel) (sp pc q : Nat) : (k.processCreate sp pc).processes.get q
    = if q = k.processes.next
      then some (createdProcess k.maxId k.processes.next k.files.next sp pc)
      else k.processes.get q := by
  rw [processCreate_processes]
  by_cases hq : q = k.processes.next
  · rw [if_pos hq, hq, Store.modify_self, Store.alloc_self]
    rfl
  · rw [if_neg hq, Store.modify_ne hq, Store.alloc_ne hq]

theorem processCreate_inv (h : k.FileInv) (sp pc : Nat) : (k.processCreate sp pc).FileInv := by
  have hslots : (k.processCreate sp pc).slots = Multiset.replicate 3 k.files.next + k.slots := by
    obtain ⟨r, h1, h2, _⟩ := Store.tally_split (s := k.processes.alloc (newProcess k.maxId))
      Process.slots Store.alloc_self
    have hr : r = k.slots := by
      rw [Store.tally_alloc, add_comm] at h1
      exact (add_left_cancel h1).symm
    rw [← hr]
    exact h2 _
  refine ⟨?_, ?_, h.served, fun {q Q} j hQ hs hj => ?_⟩
  · rw [hslots]
    exact h.counts.alloc ⟨.tty, oRdwr, 0, 3⟩ (by decide) (by simp)
  · refine h.queued.sub (fun q => List.Sublist.refl _) fun {q w Q} hmem hQ => ⟨Q, ?_, rfl⟩
    rw [processCreate_get, if_neg (Nat.ne_of_lt (Store.lt_next hQ)), hQ]
  · rw [processCreate_get] at hQ
    split at hQ
    · cases hQ
      simp [createdProcess, newProcess, Vector.get]
    · exact h.marks j hQ hs hj

end Kernel

end Cyanurus
