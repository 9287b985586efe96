import Cyanurus.Proc.ProcessFrame

/-!
# Wait queues

A process that sleeps has one entry in the wait queues, and waking takes an entry out. So
whatever wakes processes changes only those that are blocked, and makes them ready.
-/

namespace Cyanurus

/-- The process is the same, or it was blocked and has been woken. -/
def Process.Roused (P P' : Process) : Prop :=
  P' = P ∨ (P.state = .blocked ∧ P' = { P with state := .ready })

theorem Process.Roused.refl (P : Process) : P.Roused P := .inl rfl

theorem Process.Roused.trans {P P' P'' : Process} (h : P.Roused P') (h' : P'.Roused P'') :
    P.Roused P'' := by
  rcases h with rfl | ⟨hb, rfl⟩
  · exact h'
  · rcases h' with rfl | ⟨hb', rfl⟩
    · exact .inr ⟨hb, rfl⟩
    · cases hb'

theorem Process.Roused.eq {P P' : Process} (h : P.Roused P') (hs : P.state ≠ .blocked) : P' = P :=
  h.resolve_right fun h => hs h.1

namespace Kernel

/-- The process may run. -/
def isReady (k : Kernel) (p : Nat) : Bool := (k.processes.get p).any fun P => P.state == .ready

theorem isReady_iff {k : Kernel} {p : Nat} :
    k.isReady p = true ↔ ∃ P, k.processes.get p = some P ∧ P.state = .ready := by
  unfold isReady
  cases k.processes.get p with
  | none => simp
  | some P => simp

/-- The entries of the wait queues: each is for a process that is blocked, and it is its
only one. -/
structure Queued (k : Kernel) : Prop where
  blocked : ∀ {p q}, p ∈ k.waitqs q → ∃ P, k.processes.get p = some P ∧ P.state = .blocked
  unique : ∀ {p q q'}, p ∈ k.waitqs q → p ∈ k.waitqs q' → q = q'
  nodup : ∀ q, (k.waitqs q).Nodup

theorem empty_queued : Kernel.empty.Queued :=
  ⟨fun h => absurd h (by simp [Kernel.empty]), fun h => absurd h (by simp [Kernel.empty]),
    fun _ => List.nodup_nil⟩

variable {k k' k'' : Kernel} {p q : Nat}

/-- Some blocked processes have been woken. -/
structure Roused (k k' : Kernel) : Prop extends SameLists k k' where
  rel : k.processes.Rel Process.Roused k'.processes
  queues : ∀ q, (k'.waitqs q).Sublist (k.waitqs q)

theorem Roused.of_eq (hp : k'.processes = k.processes) (hw : k'.waitqs = k.waitqs)
    (h : k.SameLists k') : k.Roused k' :=
  ⟨h, by rw [hp]; exact .refl Process.Roused.refl _, fun q => by rw [hw]⟩

theorem Roused.refl (k : Kernel) : k.Roused k := .of_eq rfl rfl ⟨rfl, rfl, rfl, rfl, rfl, rfl⟩

theorem Roused.trans (h : k.Roused k') (h' : k'.Roused k'') : k.Roused k'' :=
  ⟨h.toSameLists.trans h'.toSameLists, h.rel.trans Process.Roused.trans h'.rel,
    fun q => (h'.queues q).trans (h.queues q)⟩

/-- A process that is not blocked stays as it is. -/
theorem rel_get {P : Process} {s t : Store Process} (h : s.Rel Process.Roused t)
    (hp : s.get p = some P) (hs : P.state ≠ .blocked) : t.get p = some P := by
  obtain ⟨P', hp', hP⟩ := h.forth hp
  rw [hp', hP.eq hs]

/-- Queues whose entries are among those there were, for processes that are still blocked. -/
theorem Queued.sub (h : k.Queued) (hsub : ∀ q, (k'.waitqs q).Sublist (k.waitqs q))
    (hget : ∀ {p q P}, p ∈ k'.waitqs q → k.processes.get p = some P →
      ∃ P', k'.processes.get p = some P' ∧ P'.state = P.state) : k'.Queued := by
  refine ⟨fun {p q} hp => ?_, fun hp hp' => h.unique ((hsub _).subset hp) ((hsub _).subset hp'),
    fun q => (hsub q).nodup (h.nodup q)⟩
  obtain ⟨P, hP, hs⟩ := h.blocked ((hsub q).subset hp)
  obtain ⟨P', hP', hs'⟩ := hget hp hP
  exact ⟨P', hP', hs'.trans hs⟩

/-- A change of processes that keeps their states. -/
theorem Queued.update (h : k.Queued) (p : Nat) {f : Process → Process}
    (hf : ∀ P, (f P).state = P.state) : (k.update p f).Queued := by
  refine h.sub (fun q => List.Sublist.refl _) fun {p' _ P} _ hP => ?_
  by_cases hpp : p' = p
  · exact ⟨f P, by rw [hpp]; exact Store.modify_self.trans (by rw [← hpp, hP]; rfl), hf P⟩
  · exact ⟨P, (Store.modify_ne hpp).trans hP, rfl⟩

/-- A change of a process that is awake. -/
theorem Queued.awake (h : k.Queued) {P : Process} (hp : k.processes.get p = some P)
    (hs : P.state ≠ .blocked) (f : Process → Process) : (k.update p f).Queued := by
  refine h.sub (fun q => List.Sublist.refl _) fun {p' q P'} hmem hP => ?_
  by_cases hpp : p' = p
  · obtain ⟨P₀, hP₀, hb⟩ := h.blocked (k := k) hmem
    rw [hpp, hp] at hP₀
    cases hP₀
    exact absurd hb hs
  · exact ⟨P', (Store.modify_ne hpp).trans hP, rfl⟩

/-- A process that is awake has no entry. -/
theorem Queued.not_mem (h : k.Queued) {P : Process} (hp : k.processes.get p = some P)
    (hs : P.state ≠ .blocked) (q : Waitq) : p ∉ k.waitqs q := by
  intro hmem
  obtain ⟨P', hP', hb⟩ := h.blocked hmem
  rw [hp] at hP'
  cases hP'
  exact hs hb

/-- The entries when `p` has gone to sleep are the old ones and its own. -/
theorem processSleep_mem {call : KernelCall} {r : Nat} {q q' : Waitq}
    (hr : r ∈ (k.processSleep p q call).waitqs q') : (r = p ∧ q' = q) ∨ r ∈ k.waitqs q' := by
  have hr : r ∈ Function.update k.waitqs q (p :: k.waitqs q) q' := hr
  by_cases hq : q' = q
  · subst hq
    rw [Function.update_self, List.mem_cons] at hr
    exact hr.imp (fun h => ⟨h, rfl⟩) id
  · rw [Function.update_of_ne hq] at hr
    exact .inr hr

/-- Going to sleep. -/
theorem Queued.sleep (h : k.Queued) {P : Process} (hp : k.processes.get p = some P)
    (hs : P.state ≠ .blocked) (q : Waitq) (call : KernelCall) : (k.processSleep p q call).Queued := by
  have hmem : ∀ {r q'}, r ∈ (k.processSleep p q call).waitqs q' →
      (r = p ∧ q' = q) ∨ (r ≠ p ∧ r ∈ k.waitqs q') := fun hr =>
    (processSleep_mem hr).imp id fun hr => ⟨fun hrp => h.not_mem hp hs _ (hrp ▸ hr), hr⟩
  refine ⟨fun {r q'} hr => ?_, fun {r q1 q2} h1 h2 => ?_, fun q' => ?_⟩
  · rcases hmem hr with ⟨rfl, _⟩ | ⟨hrp, hr⟩
    · exact ⟨_, Store.modify_self_of hp rfl, rfl⟩
    · obtain ⟨R, hR, hb⟩ := h.blocked hr
      exact ⟨R, (Store.modify_ne hrp).trans hR, hb⟩
  · rcases hmem h1 with ⟨rfl, hq1⟩ | ⟨hrp, h1⟩
    · rcases hmem h2 with ⟨_, hq2⟩ | ⟨hrp, _⟩
      · exact hq1.trans hq2.symm
      · exact absurd rfl hrp
    · rcases hmem h2 with ⟨rfl, _⟩ | ⟨_, h2⟩
      · exact absurd rfl hrp
      · exact h.unique h1 h2
  · show (Function.update k.waitqs q (p :: k.waitqs q) q').Nodup
    by_cases hq : q' = q
    · subst hq
      rw [Function.update_self]
      exact List.nodup_cons.mpr ⟨h.not_mem hp hs _, h.nodup _⟩
    · rw [Function.update_of_ne hq]
      exact h.nodup q'

/-- Waking takes entries out. -/
theorem processWake_queues (k : Kernel) (q q' : Waitq) :
    ((k.processWake q).2.waitqs q').Sublist (k.waitqs q') := by
  unfold processWake
  cases hq : k.waitqs q with
  | nil => exact List.Sublist.refl _
  | cons p rest =>
    show (Function.update k.waitqs q rest q').Sublist (k.waitqs q')
    by_cases hqq : q' = q
    · subst hqq
      rw [Function.update_self, hq]
      exact List.sublist_cons_self p rest
    · rw [Function.update_of_ne hqq]

/-- What `process_wake` does to queues of sleepers. -/
theorem Queued.wake (h : k.Queued) (q : Waitq) : (k.processWake q).2.Queued
    ∧ k.processes.Rel Process.Roused (k.processWake q).2.processes := by
  have hsub := processWake_queues k q
  unfold processWake at hsub ⊢
  cases hq : k.waitqs q with
  | nil => exact ⟨h, .refl Process.Roused.refl _⟩
  | cons p rest =>
    rw [hq] at hsub
    have hfirst : p ∈ k.waitqs q := by rw [hq]; exact List.mem_cons_self ..
    obtain ⟨P, hP, hb⟩ := h.blocked hfirst
    refine ⟨h.sub hsub fun {p' q' P'} hmem hP' => ?_, fun p' => ?_⟩
    · -- the process that was woken has no entry left
      have hpp : p' ≠ p := by
        rintro rfl
        by_cases hqq : q' = q
        · subst hqq
          have hnodup := h.nodup q'
          rw [hq] at hnodup
          have hmem : p' ∈ Function.update k.waitqs q' rest q' := hmem
          rw [Function.update_self] at hmem
          exact (List.nodup_cons.mp hnodup).1 hmem
        · have hmem : p' ∈ Function.update k.waitqs q rest q' := hmem
          rw [Function.update_of_ne hqq] at hmem
          exact hqq (h.unique hmem hfirst)
      exact ⟨P', (Store.modify_ne hpp).trans hP', rfl⟩
    · by_cases hpp : p' = p
      · subst hpp
        have hget : (k.processes.modify p' fun P => { P with state := .ready }).get p'
            = some { P with state := .ready } := by rw [Store.modify_self, hP]; rfl
        show Option.Rel _ _ ((k.processes.modify p' fun P => { P with state := .ready }).get p')
        rw [hget, hP]
        exact .some (.inr ⟨hb, rfl⟩)
      · show Option.Rel _ _ ((k.processes.modify p fun P => { P with state := .ready }).get p')
        rw [Store.modify_ne hpp]
        exact Store.Rel.refl Process.Roused.refl _ p'

theorem releaseFile_roused {file : Nat} (h : k.Queued) (hr : k.releaseFile file = .ok k') :
    k'.Queued ∧ k.Roused k' := by
  refine releaseFile_keeps (Φ := fun k' => k'.Queued ∧ k.Roused k') (fun k1 q hq h1 => ?_)
    (fun k1 files pipes h1 => ⟨⟨h1.1.blocked, h1.1.unique, h1.1.nodup⟩,
      ⟨⟨h1.2.next, h1.2.child, h1.2.all, h1.2.run, h1.2.current, h1.2.maxId⟩, h1.2.rel, h1.2.queues⟩⟩)
    ⟨h, .refl k⟩ hr
  obtain ⟨hqueued, hrel⟩ := h1.1.wake q
  exact ⟨hqueued, h1.2.trans ⟨(processWake_woken hq).toSameLists, hrel, processWake_queues k1 q⟩⟩

/-- A relation that allows a slot to be emptied and sleepers to be woken holds of `releaseFiles`. -/
theorem releaseFiles_rule {R : Kernel → Kernel → Prop} (hrefl : ∀ k, R k k)
    (htrans : ∀ {k k' k''}, R k k' → R k' k'' → R k k'')
    (hslot : ∀ k (i : Fin maxFdSize), R k (k.update p fun P => { P with files := P.files.set i none i.isLt }))
    (hroused : ∀ {k k'}, k.Roused k' → R k k') :
    ∀ {is : List (Fin maxFdSize)} {k k' : Kernel}, k.Queued → k.releaseFiles p is = .ok k' →
      k'.Queued ∧ R k k' := by
  intro is
  induction is with
  | nil =>
    intro k k' hq h
    cases h
    exact ⟨hq, hrefl k⟩
  | cons i is ih =>
    intro k k' hq h
    unfold releaseFiles at h
    split at h
    · exact ih hq h
    · obtain ⟨k1, h1, h⟩ := bind_eq_ok h
      have hq0 := hq.update p (f := fun P => { P with files := P.files.set i none i.isLt }) fun _ => rfl
      obtain ⟨hq1, hr1⟩ := releaseFile_roused hq0 h1
      obtain ⟨hq', hr'⟩ := ih hq1 h
      exact ⟨hq', htrans (htrans (hslot k i) (hroused hr1)) hr'⟩

end Kernel

end Cyanurus
