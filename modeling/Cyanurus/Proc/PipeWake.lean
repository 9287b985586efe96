import Cyanurus.Proc.PipeRun

/-!
# Wake-ups on pipes

Each run of bytes that is moved wakes one process at the other end. That is enough as long
as a process that was woken takes all there is, or leaves the pipe to another one that was
woken too: **`no_lost_wakeup`**. But a reader may ask for less than there is, and then it
returns without waking the next one: **`wakeup_lost`**.
-/

namespace Cyanurus

open Lts Kernel

/-- There is something to do at this end. -/
def PipeEnd.Possible (b : PipeBuffer) : PipeEnd → Prop
  | .reading => 0 < b.length
  | .writing => b.length < pageSize

/-- The call leaves something to do at its end. -/
def PipeCall.Leaves (b : PipeBuffer) : PipeCall → Prop
  | .read _ size done => size - done < b.length
  | .write _ data written => data.length - written < pageSize - b.length

theorem PipeCall.Leaves.possible {b : PipeBuffer} {c : PipeCall} (h : c.Leaves b) :
    c.side.Possible b := by
  cases c with
  | read q size done => exact Nat.lt_of_le_of_lt (Nat.zero_le _) h
  | write q data written => exact Nat.lt_of_sub_pos (Nat.lt_of_le_of_lt (Nat.zero_le _) h)

instance (b : PipeBuffer) (c : PipeCall) : Decidable (c.Leaves b) :=
  match c with
  | .read _ size done => Nat.decLt (size - done) b.length
  | .write _ data written => Nat.decLt (data.length - written) (pageSize - b.length)

namespace Io

/-- Process `r` has been woken in a call at this end of the pipe, and has not run since. -/
def Woken (w : Io) (q : Nat) (e : PipeEnd) (r : Nat) : Prop :=
  w.kernel.isReady r = true ∧ ∃ c ∈ w.calls r, c.pipe = q ∧ c.side = e

instance (w : Io) (q : Nat) (e : PipeEnd) (r : Nat) : Decidable (w.Woken q e r) := by
  unfold Woken
  infer_instance

/-- Who sleeps although there is something to do has another process before it, which was
woken and has yet to run. -/
def WakeupsKept (w : Io) : Prop :=
  ∀ q e p, p ∈ w.kernel.waitqs (PipeEnd.waitq q e) → e.Possible (w.buffers q) →
    ∃ r, r ≠ p ∧ w.Woken q e r

/-- A process that goes on in its call, and leaves something to do, leaves it to no one or to
another process that was woken. -/
def PassesOn (w : Io) : IoAct → Prop
  | .resume p => ∀ c ∈ w.calls p, c.Leaves (w.buffers c.pipe) →
      w.kernel.waitqs (c.side.waitq c.pipe) = []
        ∨ ∃ r < w.kernel.processes.next, r ≠ p ∧ w.Woken c.pipe c.side r
  | _ => True

instance (w : Io) (a : IoAct) : Decidable (w.PassesOn a) := by
  cases a <;> unfold PassesOn <;> infer_instance

end Io

namespace Kernel

variable {k k' : Kernel} {p r : Nat} {P : Process} {b : PipeBuffer} {c : PipeCall} {t : Turn}

/-- The first in the queue is woken. -/
theorem Runs.wakeAll_first (h : Runs k p P) {q : Waitq} {rest : List Nat} (hne : q ≠ .child)
    (hq : k.waitqs q = r :: rest) (n : Nat) : (Kernel.wakeAll q (n + 1) k).isReady r = true := by
  obtain ⟨R, hR, hb⟩ := h.inv.queued.blocked (show r ∈ k.waitqs q by rw [hq]; exact List.mem_cons_self ..)
  have hwake : (k.processWake q).2.processes.get r = some { R with state := .ready } := by
    unfold processWake
    rw [hq]
    exact Store.modify_self_of hR rfl
  have hruns : Runs (k.processWake q).2 r { R with state := .ready } :=
    ⟨(h.wake q).1.inv, hwake, by simp⟩
  rw [← wakeAll_wake]
  exact isReady_iff.mpr ⟨_, (hruns.wakeAll hne n).1.get, rfl⟩

/-- Going to sleep leaves the other queues alone. -/
theorem processSleep_sublist {q q' : Waitq} (k : Kernel) (p : Nat) (call : KernelCall) (hq : q' ≠ q) :
    ((k.processSleep p q call).waitqs q').Sublist (k.waitqs q') := by
  show (Function.update k.waitqs q (p :: k.waitqs q) q').Sublist (k.waitqs q')
  rw [Function.update_of_ne hq]

/-- The queues after a turn: a process goes to sleep at its own end only. -/
theorem Turned.queues (h : Turned k b p c t) (hP : Runs k p P) {q : Waitq}
    (hq : q ≠ c.side.waitq c.pipe) : (t.kernel.waitqs q).Sublist (k.waitqs q) := by
  cases h with
  | eof => exact .refl _
  | waitsForData | waitsForRoom => exact processSleep_sublist k p .other hq
  | @took q' => exact (hP.wakeAll (PipeEnd.writing.waitq_ne_child q') _).2.queues q
  | @broken _ _ _ _ P' =>
    rw [(hP.inv.processKill p P'.id sigpipe).2.2]
  | @stored q' => exact (hP.wakeAll (PipeEnd.reading.waitq_ne_child q') _).2.queues q
  | @filled q' =>
    exact (processSleep_sublist _ p .other hq).trans
      ((hP.wakeAll (PipeEnd.reading.waitq_ne_child q') _).2.queues q)

/-- Where a process still sleeps at the end of a call whose turn is over, and there is
something to do, the call has left it. -/
theorem Turned.leaves (h : Turned k b p c t) (hP : Runs k p P)
    (hr : r ∈ t.kernel.waitqs (c.side.waitq c.pipe)) (hb : c.side.Possible t.buffer) :
    c.Leaves b ∧ r ∈ k.waitqs (c.side.waitq c.pipe) := by
  have hlen : ∀ {l : List UInt8} {b' : PipeBuffer}, b'.contents pageSize = l → b'.length = l.length := by
    intro l b' h
    rw [← h, RingBuffer.length_contents]
  cases h with
  | eof _ _ hempty => exact absurd hb (by simp [PipeCall.side, PipeEnd.Possible, hempty])
  | waitsForData _ _ hempty => exact absurd hb (by simp [PipeCall.side, PipeEnd.Possible, hempty])
  | @took q size read n b' hpos hb' hcontents =>
    refine ⟨?_, ((hP.wakeAll (PipeEnd.writing.waitq_ne_child q) (n + 1)).2.queues _).subset hr⟩
    have hb : 0 < b'.length := hb
    rw [hlen hcontents, List.length_drop, RingBuffer.length_contents] at hb
    exact Nat.lt_of_sub_pos hb
  | @broken q written data Q P' hQ hreaders hget =>
    rw [(hP.inv.processKill p P'.id sigpipe).2.2] at hr
    obtain ⟨Q', hQ', hpos⟩ := hP.inv.served r q .writing hr
    rw [hQ] at hQ'
    cases hQ'
    exact absurd hreaders (Nat.ne_of_gt hpos)
  | waitsForRoom _ _ hfull => exact absurd hb (by simp [PipeCall.side, PipeEnd.Possible, hfull])
  | @stored q written n data b' hroom hall hb' hcontents =>
    refine ⟨?_, ((hP.wakeAll (PipeEnd.reading.waitq_ne_child q) (n + 1)).2.queues _).subset hr⟩
    have hb : b'.length < pageSize := hb
    rw [hlen hcontents, List.length_append, RingBuffer.length_contents, List.length_drop] at hb
    show data.length - written < pageSize - b.length
    omega
  | @filled q written n data Q b' hQ hreaders hroom hmore hb' hcontents =>
    have hb : b'.length < pageSize := hb
    rw [hlen hcontents, List.length_append, RingBuffer.length_contents,
      List.length_take_of_le (by simp; omega)] at hb
    omega

/-- Moving bytes wakes the first process at the other end, if one sleeps there. -/
theorem Runs.wakeAll_some (h : Runs k p P) {q : Waitq} (hne : q ≠ .child) (n : Nat)
    (hr : r ∈ (Kernel.wakeAll q (n + 1) k).waitqs q) :
    ∃ s, s ≠ p ∧ s ∈ k.waitqs q ∧ (Kernel.wakeAll q (n + 1) k).isReady s = true := by
  have hr := ((h.wakeAll hne (n + 1)).2.queues q).subset hr
  cases hq : k.waitqs q with
  | nil =>
    rw [hq] at hr
    cases hr
  | cons s rest =>
    refine ⟨s, fun hsp => ?_, List.mem_cons_self .., h.wakeAll_first hne hq n⟩
    exact h.not_mem_waitqs q (by rw [hq, ← hsp]; exact List.mem_cons_self ..)

/-- Where a process still sleeps at the other end of a call whose turn is over, nothing has
changed for it, or another one was woken there. -/
theorem Turned.other (h : Turned k b p c t) (hP : Runs k p P)
    (hr : r ∈ t.kernel.waitqs (c.side.other.waitq c.pipe)) : t.buffer = b
      ∨ ∃ s, s ≠ p ∧ s ∈ k.waitqs (c.side.other.waitq c.pipe) ∧ t.kernel.isReady s = true := by
  cases h with
  | eof | waitsForData | broken | waitsForRoom => exact .inl rfl
  | @took q size read n => exact .inr (hP.wakeAll_some (PipeEnd.writing.waitq_ne_child q) n hr)
  | @stored q written n => exact .inr (hP.wakeAll_some (PipeEnd.reading.waitq_ne_child q) n hr)
  | @filled q written n =>
    obtain ⟨s, hsp, hs, hready⟩ := hP.wakeAll_some (PipeEnd.reading.waitq_ne_child q) n hr
    refine .inr ⟨s, hsp, hs, ?_⟩
    obtain ⟨S, hS, hstate⟩ := isReady_iff.mp hready
    exact isReady_iff.mpr ⟨S, (Store.modify_ne hsp).trans hS, hstate⟩

theorem Spares.isReady (h : Spares p k k') (hr : r ≠ p) (hready : k.isReady r = true) :
    k'.isReady r = true := by
  obtain ⟨R, hR, hs⟩ := isReady_iff.mp hready
  obtain ⟨R', hR', _, hs'⟩ := h.stays hr hR
  refine isReady_iff.mpr ⟨R', hR', ?_⟩
  rcases hs' with hs' | ⟨hb, _⟩
  · exact hs'.trans hs
  · exact absurd (hs.symm.trans hb) (by simp)

end Kernel

namespace Io

variable {w w' : Io} {p r q : Nat} {e : PipeEnd} {c : PipeCall} {t : Turn} {a : IoAct}

/-- One that was woken is still to run after a step of another process. -/
theorem Woken.after (h : w.Woken q e r) (hr : r ≠ p) (hs : Spares p w.kernel t.kernel) :
    (w.after p c t).Woken q e r := by
  obtain ⟨hready, c', hc', hpipe⟩ := h
  exact ⟨hs.isReady hr hready, c', (Function.update_of_ne hr ..).trans hc', hpipe⟩

theorem after_buffers_ne (hq : q ≠ c.pipe) : (w.after p c t).buffers q = w.buffers q :=
  Function.update_of_ne hq ..

theorem after_buffers_self : (w.after p c t).buffers c.pipe = t.buffer := Function.update_self ..

/-- **A turn keeps wake-ups**, if it leaves what it leaves to another process that was woken,
or to no one. -/
theorem InCall.wakeups (h : InCall w p c) (ht : Turned w.kernel (w.buffers c.pipe) p c t)
    (hkept : w.WakeupsKept) (hnext : c.Leaves (w.buffers c.pipe) →
      w.kernel.waitqs (c.side.waitq c.pipe) = [] ∨ ∃ r, r ≠ p ∧ w.Woken c.pipe c.side r) :
    (w.after p c t).WakeupsKept := by
  obtain ⟨P, hP, hs⟩ := h.runs
  have hinv := h.turned ht
  have hsp := (ht.frame hP hs).2
  intro q e r hr hb
  -- a sleeper is not ready
  suffices hwoken : ∃ s, (w.after p c t).Woken q e s by
    obtain ⟨s, hwoken⟩ := hwoken
    refine ⟨s, fun hsr => ?_, hwoken⟩
    obtain ⟨R, hR, hblocked⟩ := hinv.files.queued.blocked hr
    obtain ⟨S, hS, hready⟩ := isReady_iff.mp hwoken.1
    rw [hsr, hR] at hS
    cases hS
    exact absurd (hready.symm.trans hblocked) (by simp)
  -- at another end, one that was woken before is not `p`
  have hother : r ∈ w.kernel.waitqs (PipeEnd.waitq q e) → ¬ (e = c.side ∧ q = c.pipe) →
      e.Possible (w.buffers q) → ∃ s, (w.after p c t).Woken q e s := by
    intro hr hne hb
    obtain ⟨s, _, hwoken⟩ := hkept q e r hr hb
    refine ⟨s, hwoken.after (fun hsp => ?_) hsp⟩
    obtain ⟨_, c', hc', hpipe, hside⟩ := hwoken
    rw [hsp] at hc'
    rcases h.call with hnone | hsome
    · exact absurd (hnone.symm.trans hc') (by simp)
    · rw [hsome] at hc'
      cases hc'
      exact hne ⟨hside.symm, hpipe.symm⟩
  by_cases hq : q = c.pipe
  · subst hq
    rw [after_buffers_self] at hb
    by_cases he : e = c.side
    · subst he
      obtain ⟨hleaves, hr⟩ := ht.leaves hP hr hb
      rcases hnext hleaves with hempty | ⟨s, hsp', hwoken⟩
      · rw [hempty] at hr
        cases hr
      · exact ⟨s, hwoken.after hsp' hsp⟩
    · have he' : e = c.side.other := by
        generalize c.side = e' at he
        cases e <;> cases e' <;> first | rfl | exact absurd rfl he
      have hne : PipeEnd.waitq c.pipe e ≠ c.side.waitq c.pipe := fun h => he (PipeEnd.waitq_inj h).1
      have hr₀ := (ht.queues hP hne).subset hr
      subst he'
      rcases ht.other hP hr with hsame | ⟨s, hsp', hs', hready⟩
      · exact hother hr₀ (fun h => he h.1) (hsame ▸ hb)
      · obtain ⟨c', hc', hpipe⟩ := h.inv.sleepers hs'
        exact ⟨s, hready, c', (Function.update_of_ne hsp' ..).trans hc', hpipe⟩
  · rw [after_buffers_ne hq] at hb
    have hne : PipeEnd.waitq q e ≠ c.side.waitq c.pipe := fun h => hq (PipeEnd.waitq_inj h).2
    exact hother ((ht.queues hP hne).subset hr) (fun h => hq h.2) hb

theorem step_wakeups (h : w.Inv) (hkept : w.WakeupsKept) (hok : w.PassesOn a)
    (hs : w.step a = .ok w') : w'.WakeupsKept := by
  obtain ⟨x, _, hentered, hstep⟩ := step_ok h hs
  cases hentered with
  | @done p k' hk hsp hq hnone =>
    cases hstep
    intro q e r hr hb
    obtain ⟨s, hsr, hready, c, hc, hpipe⟩ := hkept q e r ((hq _).subset hr) hb
    refine ⟨s, hsr, hsp.isReady (fun hsp => ?_) hready, c, hc, hpipe⟩
    rw [hsp, hnone] at hc
    cases hc
  | @begins p c hin hnone _ =>
    cases hstep with
    | turn _ ht =>
      refine hin.wakeups ht hkept fun hleaves => ?_
      cases hq : w.kernel.waitqs (c.side.waitq c.pipe) with
      | nil => exact .inl rfl
      | cons r rest =>
        obtain ⟨s, _, hwoken⟩ := hkept c.pipe c.side r (by rw [hq]; exact List.mem_cons_self ..)
          hleaves.possible
        refine .inr ⟨s, fun hsp => ?_, hwoken⟩
        obtain ⟨_, c', hc', _⟩ := hwoken
        rw [hsp, hnone] at hc'
        cases hc'
  | @resumes p c ha hc hin =>
    subst ha
    cases hstep with
    | turn _ ht =>
      -- who is ready does not depend on the context that is taken up again
      have hready : ∀ r, w.kernel.isReady r = true →
          (w.kernel.update p fun P => { P with suspend := none }).isReady r = true := by
        intro r hr
        obtain ⟨R, hR, hs⟩ := isReady_iff.mp hr
        by_cases hrp : r = p
        · exact isReady_iff.mpr ⟨_, Store.modify_self_of hR hrp, hs⟩
        · exact isReady_iff.mpr ⟨R, (Store.modify_ne hrp).trans hR, hs⟩
      refine hin.wakeups ht (fun q e r hr hb => ?_) fun hleaves => ?_
      · obtain ⟨s, hsr, hs, hcalls⟩ := hkept q e r hr hb
        exact ⟨s, hsr, hready s hs, hcalls⟩
      · rcases hok c hc hleaves with hempty | ⟨s, _, hsp, hs, hcalls⟩
        · exact .inl hempty
        · exact .inr ⟨s, hsp, hready s hs, hcalls⟩

end Io

/-- **No wake-up is lost** in runs in which a process that goes on in its call, and leaves
something to do at its end, leaves it to another one that was woken, or to no one. -/
theorem no_lost_wakeup {pages : Nat → Nat → UInt8} {as : List IoAct} {w : Io}
    (hr : Run (Guarded Io.PassesOn fun w a w' => w.step a = .ok w') (.empty pages) as w) :
    w.WakeupsKept := by
  have hempty : (Io.empty pages).WakeupsKept := fun q e p hp =>
    absurd hp (by simp [Io.empty, Kernel.empty])
  exact (hr.invariant (I := fun w => w.Inv ∧ w.WakeupsKept) ⟨Io.empty_inv pages, hempty⟩
    fun w a w' h hs => ⟨Io.step_inv h.1 hs.2, Io.step_wakeups h.1 h.2 hs.1 hs.2⟩).2

/-- Two children wait for data, and the parent writes `data`. -/
def twoReaders (data : List UInt8) : List IoAct :=
  [.create 0 0, .call 0 (.pipe2 0), .call 0 .fork, .call 0 .fork, .read 1 3 1, .read 2 3 1,
    .write 0 4 data]

theorem no_lost_wakeup_two : ∃ w : Io,
    Run (Guarded Io.PassesOn fun w a w' => w.step a = .ok w') (.empty fun _ _ => 0)
      (twoReaders [1] ++ [.resume 2, .read 2 3 1, .write 0 4 [2]]) w
    ∧ 1 ∈ w.kernel.waitqs (.readers 0) ∧ ∃ r, r ≠ 1 ∧ w.Woken 0 .reading r := by
  obtain ⟨w, hr, hprobe⟩ := Run.of_checked_probe Io.PassesOn Io.step .unknown (.empty fun _ _ => 0)
    (twoReaders [1] ++ [.resume 2, .read 2 3 1, .write 0 4 [2]])
    (fun w => (decide (1 ∈ w.kernel.waitqs (.readers 0)), (w.buffers 0).length)) (b := (true, 1))
    (by decide)
  have hmem := of_decide_eq_true (congrArg Prod.fst hprobe)
  have hlen : (w.buffers 0).length = 1 := congrArg Prod.snd hprobe
  exact ⟨w, hr, hmem, no_lost_wakeup hr 0 .reading 1 hmem (by show 0 < _; rw [hlen]; exact Nat.one_pos)⟩

/-- The child that is woken for two bytes takes one, and the other one sleeps on. -/
theorem wakeup_lost : ¬ ∀ w : Io, w.Reached → w.WakeupsKept := by
  intro hkept
  obtain ⟨w, hr, hprobe⟩ := Run.of_probe Io.step (.empty fun _ _ => 0)
    (twoReaders [1, 2] ++ [.resume 2])
    (fun w => (decide (1 ∈ w.kernel.waitqs (.readers 0)), (w.buffers 0).length,
      decide (∃ r < w.kernel.processes.next, w.Woken 0 .reading r))) (b := (true, 1, false))
    (by decide)
  have hmem := of_decide_eq_true (congrArg Prod.fst hprobe)
  have hlen : (w.buffers 0).length = 1 := congrArg (fun x => x.2.1) hprobe
  have hnone := of_decide_eq_false (congrArg (fun x => x.2.2) hprobe)
  obtain ⟨r, _, hwoken⟩ := hkept w ⟨_, _, hr⟩ 0 .reading 1 hmem
    (by show 0 < _; rw [hlen]; exact Nat.one_pos)
  obtain ⟨R, hR, _⟩ := isReady_iff.mp hwoken.1
  exact hnone ⟨r, Store.lt_next hR, hwoken⟩

end Cyanurus
