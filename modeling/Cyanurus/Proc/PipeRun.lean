import Cyanurus.Proc.Pipe
import Cyanurus.Proc.FileRun

/-!
# Runs of calls on pipes

Processes make and share descriptors, read and write pipes, sleep in these calls and go on
when they are woken. Any process that is ready may be the next to run, so these are the runs
under every schedule; a process that is suspended in a call goes on with it before it can do
anything else.

A call that sleeps holds its end of the pipe by the descriptor it was made with: no other
process can close that. So the pipe stays (**`closing_strands_no_sleeper`**), and what can go
wrong in the loops is reading nothing from a full pipe (**`pipe_halts_iff`**).
-/

namespace Cyanurus

open Lts Kernel

/-! ## Steps -/

/-- The kernel with the buffers of its pipes and the calls on pipes that are suspended. -/
structure Io where
  kernel : Kernel
  buffers : Nat → PipeBuffer
  calls : Nat → Option PipeCall

/-- The start. A pipe that is not made yet is empty, with what its page will hold. -/
def Io.empty (pages : Nat → Nat → UInt8) : Io :=
  ⟨.empty, fun q => ⟨pages q, 0, 0⟩, fun _ => none⟩

inductive IoAct where
  | create (sp pc : Nat)
  | call (p : Nat) (c : FileCall)
  | read (p : Nat) (fd : Int) (size : Nat)
  | write (p : Nat) (fd : Int) (data : List UInt8)
  | resume (p : Nat)

/-- The pipe that `process_read` and `process_write` find at `fd`, `none` for `-EBADF`. Other
files are not part of the model. -/
def Kernel.pipeAt (k : Kernel) (p : Nat) (fd : Int) (may : File → Bool) : Except Halt (Option Nat) :=
  match k.getFile p fd with
  | none => .ok none
  | some (_, file) =>
    match k.files.get file with
    | none => .error .fault
    | some F =>
      if may F then
        match F.type with
        | .pipe pipe => .ok (some pipe)
        | _ => .error .unknown
      else .ok none

/-- Where an action leads: it is done, or it is a turn in a call on a pipe. -/
inductive IoEntry where
  | done (w : Io)
  | turn (w : Io) (p : Nat) (c : PipeCall)

namespace Io

/-- The process may be the current one, and it is not in a call. -/
def isFree (w : Io) (p : Nat) : Bool := w.kernel.isReady p && (w.calls p).isNone

/-- An action up to the loops of `pipe.c`. What is not allowed, and what is not part of the
model, is `unknown`. -/
def enter (w : Io) : IoAct → Except Halt IoEntry
  | .create sp pc => .ok (.done { w with kernel := w.kernel.processCreate sp pc })
  | .call p c =>
    if w.isFree p then (w.kernel.fileCall p c).map fun (_, k) => .done { w with kernel := k }
    else .error .unknown
  | .read p fd size =>
    if w.isFree p then (w.kernel.pipeAt p fd File.forRead).map fun pipe =>
      match pipe with
      | some pipe => .turn w p (.read pipe size 0)
      | none => .done w
    else .error .unknown
  | .write p fd data =>
    if w.isFree p then (w.kernel.pipeAt p fd File.forWrite).map fun pipe =>
      match pipe with
      | some pipe => .turn w p (.write pipe data 0)
      | none => .done w
    else .error .unknown
  | .resume p =>
    match w.calls p with
    | some c =>
      if w.kernel.isReady p then
        .ok (.turn { w with kernel := w.kernel.update p fun P => { P with suspend := none } } p c)
      else .error .unknown
    | none => .error .unknown

/-- The state after a turn. -/
def after (w : Io) (p : Nat) (c : PipeCall) (t : Turn) : Io where
  kernel := t.kernel
  buffers := Function.update w.buffers c.pipe t.buffer
  calls := Function.update w.calls p t.outcome.suspended

def step (w : Io) (a : IoAct) : Except Halt Io :=
  w.enter a >>= fun entry =>
    match entry with
    | .done w => .ok w
    | .turn w p c => (w.kernel.turn (w.buffers c.pipe) p c).map (w.after p c)

end Io

/-! ## What a call leaves to the others -/

namespace Kernel

variable {k k' k'' : Kernel} {p r : Nat} {P : Process} {c : PipeCall} {f : Process → Process}

/-- The processes other than `p` keep their descriptors and at most wake up, and the files
stay what they are. -/
structure Spares (p : Nat) (k k' : Kernel) : Prop where
  stays : ∀ {r R}, r ≠ p → k.processes.get r = some R → ∃ R', k'.processes.get r = some R'
    ∧ R'.files = R.files ∧ (R'.state = R.state ∨ (R.state = .blocked ∧ R'.state = .ready))
  files : Kept k.files k'.files

theorem Spares.of_others (h : Others p k k') : Spares p k k' := by
  refine ⟨fun {r R} hr hR => ?_, h.files⟩
  have hrel := h.rel r hr
  rw [hR] at hrel
  generalize k'.processes.get r = x at *
  cases hrel with
  | some hrel =>
    rcases hrel with rfl | ⟨hb, rfl⟩
    · exact ⟨_, rfl, rfl, .inl rfl⟩
    · exact ⟨_, rfl, rfl, .inr ⟨hb, rfl⟩⟩

theorem Spares.trans (h : Spares p k k') (h' : Spares p k' k'') : Spares p k k'' := by
  refine ⟨fun {r R} hr hR => ?_, h.files.trans h'.files⟩
  obtain ⟨R1, h1, hf1, hs1⟩ := h.stays hr hR
  obtain ⟨R2, h2, hf2, hs2⟩ := h'.stays hr h1
  refine ⟨R2, h2, hf2.trans hf1, ?_⟩
  rcases hs1 with hs1 | ⟨hb, hs1⟩
  · rw [← hs1]
    exact hs2
  · rcases hs2 with hs2 | ⟨hb2, _⟩
    · exact .inr ⟨hb, hs2.trans hs1⟩
    · exact absurd (hb2.symm.trans hs1) (by simp)

/-- A change of the fields of a process that the others do not see. -/
theorem Spares.update (k : Kernel) (p r : Nat)
    (hf : ∀ P, (f P).files = P.files ∧ (f P).state = P.state) : Spares p k (k.update r f) := by
  refine ⟨fun {r' R} _ hR => ?_, .refl _⟩
  by_cases hr : r' = r
  · exact ⟨f R, Store.modify_self_of hR hr, (hf R).1, .inl (hf R).2⟩
  · exact ⟨R, (Store.modify_ne hr).trans hR, rfl, .inl rfl⟩

/-- The process holds the end that it is in a call at. -/
def Holds (k : Kernel) (p : Nat) (c : PipeCall) : Prop :=
  ∃ P i f, k.processes.get p = some P ∧ P.files.get i = some f ∧ endOf k.files c.pipe c.side f = true

theorem Holds.pipe (h : k.Holds p c) (hk : k.FileInv) : ∃ Q, k.pipes.get c.pipe = some Q := by
  obtain ⟨P, i, f, hP, hf, he⟩ := h
  obtain ⟨F, hF⟩ := hk.counts.live (mem_slots hP hf)
  rw [endOf_eq hF] at he
  exact (hk.counts.pipe hF (File.isEnd_iff.mp he).1).1

/-- What a process holds, no other can close. -/
theorem Holds.spared (h : k.Holds r c) (hr : r ≠ p) (hs : Spares p k k') (hk : k'.FileInv) :
    k'.Holds r c := by
  obtain ⟨R, i, f, hR, hf, he⟩ := h
  obtain ⟨R', hR', hfiles, _⟩ := hs.stays hr hR
  have hf' : R'.files.get i = some f := hfiles ▸ hf
  refine ⟨R', i, f, hR', hf', ?_⟩
  obtain ⟨F, hF⟩ := hk.counts.live (mem_slots hR' hf')
  exact (hs.files.ends he).resolve_left (by rw [hF]; simp)

/-- A process that goes on, or to sleep, in a call at the end that it holds. -/
theorem Holds.keep {P' : Process} {c' : PipeCall} (h : k.Holds p c) (hP : k.processes.get p = some P)
    (hP' : k'.processes.get p = some P') (hf : P'.files = P.files) (hfiles : k'.files = k.files)
    (hpipe : c'.pipe = c.pipe) (hside : c'.side = c.side) : k'.Holds p c' := by
  obtain ⟨P₀, i, f, hP₀, hfile, he⟩ := h
  rw [hP] at hP₀
  cases hP₀
  exact ⟨P', i, f, hP', by rw [hf]; exact hfile, by rw [hfiles, hpipe, hside]; exact he⟩

/-! ## Waking, sleeping and signals -/

theorem FileInv.update (h : k.FileInv) (r : Nat)
    (hf : ∀ P, (f P).files = P.files ∧ (f P).state = P.state)
    (hm : ∀ P, (f P).closeOnExec = P.closeOnExec) : (k.update r f).FileInv := by
  refine ⟨(slots_keep k r fun P => (hf P).1) ▸ h.counts, h.queued.update r fun P => (hf P).2,
    h.served, fun {r' R} j hR hs hj => ?_⟩
  obtain ⟨R₀, hR₀, rfl⟩ := Store.get_modify hR
  by_cases hr : r' = r
  · rw [if_pos hr] at hs hj ⊢
    rw [hm]
    rw [(hf R₀).1] at hj
    rw [(hf R₀).2] at hs
    exact h.marks j hR₀ hs hj
  · rw [if_neg hr] at hs hj ⊢
    exact h.marks j hR₀ hs hj

theorem Runs.wakeAll (h : Runs k p P) {q : Waitq} (hq : q ≠ .child) (n : Nat) :
    Runs (wakeAll q n k) p P ∧ Others p k (wakeAll q n k) := by
  refine wakeAll_keeps (Φ := fun k' => Runs k' p P ∧ Others p k k') hq (fun k1 q1 _ h1 => ?_) n k
    ⟨h, .refl p k⟩
  obtain ⟨h2, ho⟩ := h1.1.wake q1
  exact ⟨h2, h1.2.trans ho⟩

theorem Runs.not_mem_waitqs (h : Runs k p P) (q : Waitq) : p ∉ k.waitqs q :=
  h.inv.queued.not_mem h.get h.awake q

/-- A process goes to sleep at an end of a pipe whose other end is open. -/
theorem Runs.processSleep (h : Runs k p P) (hs : P.state = .ready) {q : Nat} {e : PipeEnd} {Q : Pipe}
    (hQ : k.pipes.get q = some Q) (hpos : 0 < Q.ends e.other) :
    (k.processSleep p (e.waitq q) .other).FileInv
      ∧ Spares p k (k.processSleep p (e.waitq q) .other) := by
  have hne : ∀ {r}, r ≠ p → (k.processSleep p (e.waitq q) .other).processes.get r
      = k.processes.get r := fun hr => Store.modify_ne hr
  refine ⟨⟨?_, h.inv.queued.sleep h.get h.awake _ _, fun r q' e' hr => ?_, fun {r R} j hR hd hj => ?_⟩,
    ⟨fun {r R} hr hR => ⟨R, (hne hr).trans hR, rfl, .inl rfl⟩, .refl _⟩⟩
  · have hslots : (k.processSleep p (e.waitq q) .other).slots = k.slots :=
      slots_keep k p (f := fun P => { P with state := .blocked, suspend := some .other }) fun _ => rfl
    exact hslots ▸ h.inv.counts
  · rcases processSleep_mem hr with ⟨_, hq'⟩ | hr
    · obtain ⟨rfl, rfl⟩ := PipeEnd.waitq_inj hq'
      exact ⟨Q, hQ, hpos⟩
    · exact h.inv.served r q' e' hr
  · by_cases hrp : r = p
    · subst hrp
      have hget : (k.processSleep r (e.waitq q) .other).processes.get r
          = some { P with state := .blocked, suspend := some .other } := Store.modify_self_of h.get rfl
      rw [hget] at hR
      cases hR
      exact h.inv.marks (P := P) j h.get (by rw [hs]; simp) hj
    · rw [hne hrp] at hR
      exact h.inv.marks j hR hd hj

theorem FileInv.processKill (h : k.FileInv) (p : Nat) (pid sig : Int) :
    (k.processKill pid sig).2.FileInv ∧ Spares p k (k.processKill pid sig).2
      ∧ (k.processKill pid sig).2.waitqs = k.waitqs := by
  rcases processKill_cases k pid sig with heq | ⟨r, _, _, heq⟩
  · rw [heq]
    exact ⟨h, .of_others (.refl p k), rfl⟩
  · rw [heq]
    exact ⟨h.update r (fun _ => ⟨rfl, rfl⟩) fun _ => rfl, .update k p r fun _ => ⟨rfl, rfl⟩, rfl⟩

/-- What a turn leaves to the others. -/
theorem Turned.frame {b : PipeBuffer} {t : Turn} (h : Turned k b p c t) (hP : Runs k p P)
    (hs : P.state = .ready) : t.kernel.FileInv ∧ Spares p k t.kernel := by
  cases h with
  | eof => exact ⟨hP.inv, .of_others (.refl p k)⟩
  | waitsForData hQ hw => exact hP.processSleep (e := .reading) hs hQ hw
  | @took q size read n =>
    obtain ⟨hP', ho⟩ := hP.wakeAll (PipeEnd.writing.waitq_ne_child q) (n + 1)
    exact ⟨hP'.inv, .of_others ho⟩
  | @broken q written data Q P' =>
    obtain ⟨hk, hsp, _⟩ := hP.inv.processKill p P'.id sigpipe
    exact ⟨hk, hsp⟩
  | waitsForRoom hQ hr => exact hP.processSleep (e := .writing) hs hQ hr
  | @stored q written n =>
    obtain ⟨hP', ho⟩ := hP.wakeAll (PipeEnd.reading.waitq_ne_child q) (n + 1)
    exact ⟨hP'.inv, .of_others ho⟩
  | @filled q written n data Q b' hQ hr =>
    obtain ⟨hP', ho⟩ := hP.wakeAll (PipeEnd.reading.waitq_ne_child q) (n + 1)
    obtain ⟨_, hpipes⟩ := wakeAll_files _ (PipeEnd.reading.waitq_ne_child q) (n + 1) k
    obtain ⟨hk, hsp⟩ := hP'.processSleep (e := .writing) hs (hpipes ▸ hQ) hr
    exact ⟨hk, (Spares.of_others ho).trans hsp⟩

end Kernel

/-! ## The invariant -/

namespace Io

variable {w w' : Io} {p : Nat} {c : PipeCall} {k' : Kernel} {t : Turn}
  {bytes : List UInt8} {b : PipeBuffer} {P : Process} {e : PipeEnd} {may : File → Bool} {fd : Int}
  {k : Kernel} {F : File} {a : IoAct}

structure Inv (w : Io) : Prop where
  files : w.kernel.FileInv
  wf : ∀ q, (w.buffers q).Wf pageSize
  calls : ∀ {p c}, w.calls p = some c → w.kernel.Holds p c ∧ c.Wf
  /-- A process that sleeps at an end of a pipe is in a call there. -/
  sleepers : ∀ {p q e}, p ∈ w.kernel.waitqs (PipeEnd.waitq q e) →
    ∃ c, w.calls p = some c ∧ c.pipe = q ∧ c.side = e

/-- Process `p` is about to take a turn in the call `c`, which it has just made or goes on
with. -/
structure InCall (w : Io) (p : Nat) (c : PipeCall) : Prop where
  inv : w.Inv
  ready : w.kernel.isReady p = true
  holds : w.kernel.Holds p c
  wf : c.Wf
  call : w.calls p = none ∨ w.calls p = some c

/-- A step of `p`, which is in no call, outside the loops of `pipe.c`. -/
theorem Inv.done (h : w.Inv) (hk : k'.FileInv) (hs : Spares p w.kernel k')
    (hq : ∀ q, (k'.waitqs q).Sublist (w.kernel.waitqs q)) (hp : w.calls p = none) :
    Inv { w with kernel := k' } := by
  refine ⟨hk, h.wf, fun {r c} hr => ?_, fun hr => h.sleepers ((hq _).subset hr)⟩
  obtain ⟨hholds, hwf⟩ := h.calls hr
  have hrp : r ≠ p := by
    rintro rfl
    exact absurd (hr.symm.trans hp) (by simp)
  exact ⟨hholds.spared hrp hs hk, hwf⟩

/-- A process at the end of a turn: it is awake as before, or it sleeps in the call that it
goes on with. -/
theorem Inv.after (h : w.Inv) (hk : t.kernel.FileInv) (hs : Spares p w.kernel t.kernel)
    (hb : t.buffer.Wf pageSize)
    (hcall : ∀ {c'}, t.outcome.suspended = some c' → t.kernel.Holds p c' ∧ c'.Wf)
    (hq : ∀ {r q e}, r ∈ t.kernel.waitqs (PipeEnd.waitq q e) →
      (r ≠ p ∧ r ∈ w.kernel.waitqs (PipeEnd.waitq q e))
        ∨ (r = p ∧ ∃ c', t.outcome.suspended = some c' ∧ c'.pipe = q ∧ c'.side = e)) :
    (w.after p c t).Inv := by
  refine ⟨hk, fun q => ?_, fun {r c'} hr => ?_, fun {r q e} hr => ?_⟩
  · show (Function.update w.buffers c.pipe t.buffer q).Wf pageSize
    by_cases hq : q = c.pipe
    · rw [hq, Function.update_self]
      exact hb
    · rw [Function.update_of_ne hq]
      exact h.wf q
  · have hr : Function.update w.calls p t.outcome.suspended r = some c' := hr
    by_cases hrp : r = p
    · rw [hrp, Function.update_self] at hr
      exact hrp ▸ hcall hr
    · rw [Function.update_of_ne hrp] at hr
      obtain ⟨hholds, hwf⟩ := h.calls hr
      exact ⟨hholds.spared hrp hs hk, hwf⟩
  · rcases hq hr with ⟨hrp, hr⟩ | ⟨rfl, c', hc', hpipe⟩
    · obtain ⟨c', hc', hpipe⟩ := h.sleepers hr
      exact ⟨c', (Function.update_of_ne hrp ..).trans hc', hpipe⟩
    · exact ⟨c', (Function.update_self ..).trans hc', hpipe⟩

/-- The caller, as the calls on descriptors see it. -/
theorem InCall.runs (h : InCall w p c) : ∃ P, Runs w.kernel p P ∧ P.state = .ready := by
  obtain ⟨P, hP, hs⟩ := isReady_iff.mp h.ready
  exact ⟨P, ⟨h.inv.files, hP, by rw [hs]; simp⟩, hs⟩

/-- A turn that returns, having woken processes. -/
theorem InCall.returned (h : InCall w p c) (hP : Runs w.kernel p P) (hk : k'.FileInv)
    (hs : Spares p w.kernel k') (hq : ∀ q, (k'.waitqs q).Sublist (w.kernel.waitqs q))
    (hb : b.Wf pageSize) {r : Int} :
    (w.after p c ⟨k', b, bytes, .returned r⟩).Inv := by
  refine h.inv.after hk hs hb (fun hc => absurd hc (by simp [Outcome.suspended])) fun {r q e} hr => ?_
  have hr := (hq _).subset hr
  exact .inl ⟨fun hrp => hP.not_mem_waitqs _ (hrp ▸ hr), hr⟩

/-- A turn that ends asleep in a call at the same end, having woken processes. -/
theorem InCall.slept (h : InCall w p c) (hP₀ : w.kernel.processes.get p = some P)
    (hP : Runs k' p P) (ho : Others p w.kernel k') (hfiles : k'.files = w.kernel.files)
    (hk : (k'.processSleep p (c.side.waitq c.pipe) .other).FileInv)
    (hsp : Spares p w.kernel (k'.processSleep p (c.side.waitq c.pipe) .other))
    (hb : b.Wf pageSize) {c' : PipeCall} (hpipe : c'.pipe = c.pipe)
    (hside : c'.side = c.side) (hc' : c'.Wf) :
    (w.after p c ⟨k'.processSleep p (c.side.waitq c.pipe) .other, b, bytes, .asleep c'⟩).Inv := by
  refine h.inv.after hk hsp hb (fun {c''} hc => ?_) fun {r q e} hr => ?_
  · cases hc
    exact ⟨h.holds.keep hP₀ (Store.modify_self_of hP.get rfl) rfl hfiles hpipe hside, hc'⟩
  · rcases processSleep_mem hr with ⟨rfl, hq⟩ | hr
    · obtain ⟨rfl, rfl⟩ := PipeEnd.waitq_inj hq
      exact .inr ⟨rfl, c', rfl, hpipe, hside⟩
    · exact .inl ⟨fun hrp => hP.not_mem_waitqs _ (hrp ▸ hr), (ho.queues _).subset hr⟩

/-- **A turn keeps the invariant.** -/
theorem InCall.turned (h : InCall w p c) (ht : Turned w.kernel (w.buffers c.pipe) p c t) :
    (w.after p c t).Inv := by
  obtain ⟨P, hP, hs⟩ := h.runs
  obtain ⟨hk, hsp⟩ := ht.frame hP hs
  have hwf := h.inv.wf c.pipe
  cases ht with
  | eof => exact h.returned hP hk hsp (fun _ => .refl _) hwf
  | waitsForData => exact h.slept hP.get hP (.refl p _) rfl hk hsp hwf rfl rfl h.wf
  | @took q size read n b' hpos hb' =>
    have ho := (hP.wakeAll (PipeEnd.writing.waitq_ne_child q) (n + 1)).2
    exact h.returned hP hk hsp ho.queues hb'
  | @broken q written data Q P' =>
    have hqueues := (h.inv.files.processKill p P'.id sigpipe).2.2
    exact h.returned hP hk hsp (fun q => by rw [hqueues]) hwf
  | waitsForRoom => exact h.slept hP.get hP (.refl p _) rfl hk hsp hwf rfl rfl h.wf
  | @stored q written n data b' hroom hall hb' =>
    have ho := (hP.wakeAll (PipeEnd.reading.waitq_ne_child q) (n + 1)).2
    exact h.returned hP hk hsp ho.queues hb'
  | @filled q written n data Q b' hQ hr hroom hmore hb' =>
    obtain ⟨hP', ho⟩ := hP.wakeAll (PipeEnd.reading.waitq_ne_child q) (n + 1)
    have hfiles := (wakeAll_files _ (PipeEnd.reading.waitq_ne_child q) (n + 1) w.kernel).1
    refine h.slept hP.get hP' ho hfiles hk hsp hb' rfl rfl ?_
    show written + (pageSize - (w.buffers q).length) ≤ data.length
    have hmore : pageSize - (w.buffers q).length < data.length - written := hmore
    omega

/-! ## Entering a call -/

theorem pipeAt_ends (h : Runs k p P)
    (hmay : ∀ F : File, may F = true → F.accmode = e.mode ∨ F.accmode = oRdwr) :
    k.pipeAt p fd may = .error .unknown ∨ k.pipeAt p fd may = .ok none ∨ ∃ q,
      k.pipeAt p fd may = .ok (some q) ∧ ∀ c : PipeCall, c.pipe = q → c.side = e → k.Holds p c := by
  unfold Kernel.pipeAt
  rcases getFile_spec h.get fd with ⟨i, f, _, hf, hfile⟩ | hnone
  · obtain ⟨F, hF⟩ := h.inv.counts.live (mem_slots h.get hf)
    rw [hfile]
    simp only [hF]
    by_cases hm : may F = true
    · rw [if_pos hm]
      cases ht : F.type with
      | unused | tty | inode => exact .inl rfl
      | pipe q =>
        refine .inr (.inr ⟨q, rfl, fun c hpipe hside => ⟨P, i, f, h.get, hf, ?_⟩⟩)
        obtain ⟨_, e', he'⟩ := h.inv.counts.pipe hF ht
        -- an end of a pipe is not open for both
        have hmode : F.accmode = e.mode := (hmay F hm).resolve_right fun hrdwr => by
          rw [hrdwr] at he'
          cases e' <;> cases he'
        rw [endOf_eq hF, File.isEnd_iff, hpipe, hside]
        exact ⟨ht, hmode⟩
    · rw [if_neg hm]
      exact .inr (.inl rfl)
  · rw [hnone]
    exact .inr (.inl rfl)

theorem forRead_mode (h : F.forRead = true) :
    F.accmode = PipeEnd.reading.mode ∨ F.accmode = oRdwr := by
  simp only [File.forRead, Bool.or_eq_true, beq_iff_eq] at h
  exact h.symm

theorem forWrite_mode (h : F.forWrite = true) :
    F.accmode = PipeEnd.writing.mode ∨ F.accmode = oRdwr := by
  simp only [File.forWrite, Bool.or_eq_true, beq_iff_eq] at h
  exact h.symm

theorem isFree_iff : w.isFree p = true ↔ w.kernel.isReady p = true ∧ w.calls p = none := by
  simp [isFree]

/-- The entries there are. -/
inductive Entered (w : Io) (a : IoAct) : IoEntry → Prop
  | done {p : Nat} {k' : Kernel} : k'.FileInv → Spares p w.kernel k' →
      (∀ q, (k'.waitqs q).Sublist (w.kernel.waitqs q)) → w.calls p = none →
      Entered w a (.done { w with kernel := k' })
  | begins {p : Nat} {c : PipeCall} : w.InCall p c → w.calls p = none → c.Fresh →
      Entered w a (.turn w p c)
  | resumes {p : Nat} {c : PipeCall} : a = .resume p → w.calls p = some c →
      InCall { w with kernel := w.kernel.update p fun P => { P with suspend := none } } p c →
      Entered w a (.turn { w with kernel := w.kernel.update p fun P => { P with suspend := none } } p c)

/-- A call on descriptors, `fork` included. -/
theorem fileCall_spares (h : Runs k p P) (hs : P.state = .ready)
    (c : FileCall) : ∃ r k', k.fileCall p c = .ok (r, k') ∧ k'.FileInv ∧ Spares p k k'
      ∧ ∀ q, (k'.waitqs q).Sublist (k.waitqs q) := by
  by_cases hc : c = .fork
  · subst hc
    obtain ⟨r, k', hk', hinv, hprocs, hqueues, hkept⟩ := h.processFork
    refine ⟨_, k', by rw [fileCall, hk']; rfl, hinv, ⟨fun {r R} hr hR => ⟨R, ?_, rfl, .inl rfl⟩, hkept⟩,
      fun q => by rw [hqueues]⟩
    rw [hprocs, forkProcess_get h.get, if_neg (Nat.ne_of_lt (Store.lt_next hR)), if_neg hr, hR]
  · obtain ⟨r, k', _, hk', hruns, ho, _⟩ := h.call (by rw [hs]; simp) hc
    exact ⟨r, k', hk', hruns.inv, .of_others ho, ho.queues⟩

theorem Inv.free (h : w.Inv) (hp : w.isFree p = true) :
    w.calls p = none ∧ ∃ P, Runs w.kernel p P ∧ P.state = .ready := by
  obtain ⟨hready, hnone⟩ := isFree_iff.mp hp
  obtain ⟨P, hP, hs⟩ := isReady_iff.mp hready
  exact ⟨hnone, P, ⟨h.files, hP, by rw [hs]; simp⟩, hs⟩

/-- A call of `process_read` or `process_write`. -/
theorem Inv.begins (h : w.Inv) (hp : w.isFree p = true) (a : IoAct)
    (hmay : ∀ F : File, may F = true → F.accmode = e.mode ∨ F.accmode = oRdwr)
    (call : Nat → PipeCall) (hcall : ∀ q, (call q).pipe = q ∧ (call q).side = e ∧ (call q).Fresh) :
    let entry := (w.kernel.pipeAt p fd may).map fun pipe =>
      match pipe with
      | some pipe => IoEntry.turn w p (call pipe)
      | none => .done w
    entry = .error .unknown ∨ ∃ x, entry = .ok x ∧ Entered w a x := by
  obtain ⟨hnone, P, hruns, _⟩ := h.free hp
  intro entry
  unfold entry
  rcases pipeAt_ends hruns hmay with hat | hat | ⟨q, hat, hholds⟩
  · rw [hat]
    exact .inl rfl
  · rw [hat]
    exact .inr ⟨_, rfl, .done h.files (.of_others (.refl p _)) (fun _ => .refl _) hnone⟩
  · rw [hat]
    obtain ⟨hpipe, hside, hfresh⟩ := hcall q
    exact .inr ⟨_, rfl, .begins ⟨h, (isFree_iff.mp hp).1, hholds _ hpipe hside, hfresh.wf, .inl hnone⟩
      hnone hfresh⟩

/-- A process that was woken goes on with its call. -/
theorem Inv.resumes (h : w.Inv) (hc : w.calls p = some c) (hp : w.kernel.isReady p = true) :
    InCall { w with kernel := w.kernel.update p fun P => { P with suspend := none } } p c := by
  obtain ⟨P, hP, hs⟩ := isReady_iff.mp hp
  have hk := h.files.update p (f := fun P => { P with suspend := none })
    (fun _ => ⟨rfl, rfl⟩) fun _ => rfl
  have hP' : (w.kernel.update p fun P => { P with suspend := none }).processes.get p
      = some { P with suspend := none } := Store.modify_self_of hP rfl
  have hholds := (h.calls hc).1.keep hP hP' rfl rfl rfl rfl
  refine ⟨⟨hk, h.wf, fun {r c'} hr => ⟨?_, (h.calls hr).2⟩, h.sleepers⟩,
    isReady_iff.mpr ⟨_, hP', hs⟩, hholds, (h.calls hc).2, .inr hc⟩
  by_cases hrp : r = p
  · subst hrp
    exact (h.calls hr).1.keep hP hP' rfl rfl rfl rfl
  · exact (h.calls hr).1.spared hrp (.update w.kernel p p fun _ => ⟨rfl, rfl⟩) hk

/-- **Every action that is allowed** is one on descriptors, or it enters a loop of `pipe.c`
with the pipe held open. -/
theorem enter_cases (h : w.Inv) (a : IoAct) :
    w.enter a = .error .unknown ∨ ∃ x, w.enter a = .ok x ∧ Entered w a x := by
  cases a with
  | create sp pc =>
    have hnew : w.calls w.kernel.processes.next = none := by
      cases hc : w.calls w.kernel.processes.next with
      | none => rfl
      | some c =>
        obtain ⟨P, _, _, hP, _⟩ := (h.calls hc).1
        exact absurd (Store.lt_next hP) (Nat.lt_irrefl _)
    refine .inr ⟨_, rfl, .done (processCreate_inv h.files sp pc)
      ⟨fun {r R} hr hR => ⟨R, ?_, rfl, .inl rfl⟩, .alloc _ _⟩ (fun _ => .refl _) hnew⟩
    rw [processCreate_get, if_neg hr, hR]
  | call p c =>
    rw [enter]
    by_cases hp : w.isFree p = true
    · obtain ⟨hnone, P, hruns, hs⟩ := h.free hp
      obtain ⟨r, k', hk', hinv, hsp, hq⟩ := fileCall_spares hruns hs c
      rw [if_pos hp, hk']
      exact .inr ⟨_, rfl, .done hinv hsp hq hnone⟩
    · exact .inl (if_neg hp)
  | read p fd size =>
    rw [enter]
    by_cases hp : w.isFree p = true
    · rw [if_pos hp]
      exact h.begins hp _ (fun _ => forRead_mode) (fun q => .read q size 0)
        fun _ => ⟨rfl, rfl, rfl⟩
    · exact .inl (if_neg hp)
  | write p fd data =>
    rw [enter]
    by_cases hp : w.isFree p = true
    · rw [if_pos hp]
      exact h.begins hp _ (fun _ => forWrite_mode) (fun q => .write q data 0)
        fun _ => ⟨rfl, rfl, rfl⟩
    · exact .inl (if_neg hp)
  | resume p =>
    rw [enter]
    cases hc : w.calls p with
    | none => exact .inl rfl
    | some c =>
      simp only
      by_cases hp : w.kernel.isReady p = true
      · rw [if_pos hp]
        exact .inr ⟨_, rfl, .resumes rfl hc (h.resumes hc hp)⟩
      · exact .inl (if_neg hp)

/-! ## The steps -/

/-- What an entry leads to. -/
inductive Stepped : IoEntry → Io → Prop
  | done {w : Io} : Stepped (.done w) w
  | turn {w : Io} {p : Nat} {c : PipeCall} {t : Turn} :
      w.kernel.turn (w.buffers c.pipe) p c = .ok t → Turned w.kernel (w.buffers c.pipe) p c t →
      Stepped (.turn w p c) (w.after p c t)

/-- A process reads no bytes from a full pipe. -/
def ReadsNothing (w : Io) : IoAct → Prop
  | .read p fd size => w.isFree p = true ∧ size = 0 ∧ ∃ q,
      w.kernel.pipeAt p fd File.forRead = .ok (some q) ∧ (w.buffers q).length = pageSize
  | .resume p => w.kernel.isReady p = true ∧ ∃ q done,
      w.calls p = some (.read q 0 done) ∧ (w.buffers q).length = pageSize
  | _ => False

theorem readsNothing_iff {w₁ : Io} (h : w.enter a = .ok (.turn w₁ p c)) :
    c.ReadsNothing (w₁.buffers c.pipe) ↔ w.ReadsNothing a := by
  cases a with
  | create sp pc => exact absurd h (by simp [enter])
  | call r c =>
    rw [enter] at h
    split at h
    · obtain ⟨x, _, hx⟩ := map_eq_ok h
      cases hx
    · cases h
  | read r fd size =>
    rw [enter] at h
    split at h
    · rename_i hfree
      obtain ⟨x, hat, hx⟩ := map_eq_ok h
      cases x with
      | none => cases hx
      | some q =>
        cases hx
        exact ⟨fun h => ⟨hfree, h.1, q, hat, h.2⟩, fun h => by
          obtain ⟨_, hsize, q', hat', hfull⟩ := h
          rw [hat] at hat'
          cases hat'
          exact ⟨hsize, hfull⟩⟩
    · cases h
  | write r fd data =>
    rw [enter] at h
    split at h
    · obtain ⟨x, _, hx⟩ := map_eq_ok h
      cases x with
      | none => cases hx
      | some q =>
        cases hx
        exact Iff.rfl
    · cases h
  | resume r =>
    rw [enter] at h
    cases hc : w.calls r with
    | none =>
      rw [hc] at h
      cases h
    | some c' =>
      rw [hc] at h
      simp only at h
      split at h
      · rename_i hready
        cases h
        cases c with
        | read q size done =>
          refine ⟨fun h => ⟨hready, q, done, ?_, h.2⟩, fun h => ?_⟩
          · rw [hc, h.1]
          · obtain ⟨_, q', done', hc', hfull⟩ := h
            rw [hc] at hc'
            cases hc'
            exact ⟨rfl, hfull⟩
        | write q data written =>
          refine ⟨fun h => absurd h id, fun h => ?_⟩
          obtain ⟨_, q', done', hc', _⟩ := h
          rw [hc] at hc'
          cases hc'
      · cases h

theorem ReadsNothing.enter (h : w.ReadsNothing a) :
    ∃ w₁ p c, w.enter a = .ok (.turn w₁ p c) := by
  cases a with
  | create sp pc => exact absurd h id
  | call p c => exact absurd h id
  | write p fd data => exact absurd h id
  | read p fd size =>
    obtain ⟨hfree, _, q, hat, _⟩ := h
    refine ⟨w, p, .read q size 0, ?_⟩
    rw [Io.enter, if_pos hfree, hat]
    rfl
  | resume p =>
    obtain ⟨hready, q, done, hc, _⟩ := h
    refine ⟨{ w with kernel := w.kernel.update p fun P => { P with suspend := none } }, p,
      .read q 0 done, ?_⟩
    rw [Io.enter, hc]
    exact if_pos hready

/-- **Every action is refused, halts the kernel, or leads on.** -/
theorem step_cases (h : w.Inv) (a : IoAct) : (¬ w.ReadsNothing a ∧ w.step a = .error .unknown)
    ∨ (w.ReadsNothing a ∧ w.step a = .error .bug)
    ∨ (¬ w.ReadsNothing a ∧ ∃ x w', w.enter a = .ok x ∧ Entered w a x ∧ w.step a = .ok w'
      ∧ Stepped x w') := by
  unfold step
  rcases enter_cases h a with herr | ⟨x, hx, hentered⟩
  · refine .inl ⟨fun hn => ?_, by rw [herr]; rfl⟩
    obtain ⟨_, _, _, hn⟩ := hn.enter
    exact absurd (herr.symm.trans hn) (by simp)
  rw [hx]
  cases x with
  | done w₁ =>
    refine .inr (.inr ⟨fun hn => ?_, _, w₁, rfl, hentered, rfl, .done⟩)
    obtain ⟨_, _, _, hn⟩ := hn.enter
    exact absurd (hx.symm.trans hn) (by simp)
  | turn w₁ p c =>
    have hin : w₁.InCall p c := by
      cases hentered with
      | begins hin _ _ => exact hin
      | resumes _ _ hin => exact hin
    obtain ⟨Q, hQ⟩ := hin.holds.pipe hin.inv.files
    obtain ⟨P, hP, _⟩ := hin.runs
    rcases turn_cases hin.wf hQ hP.get (hin.inv.wf _) with ⟨hn, hbug⟩ | ⟨hn, t, ht, hturned⟩
    · refine .inr (.inl ⟨(readsNothing_iff hx).mp hn, ?_⟩)
      show Except.map _ _ = _
      rw [hbug]
      rfl
    · refine .inr (.inr ⟨fun h => hn ((readsNothing_iff hx).mpr h), _, w₁.after p c t, rfl, hentered,
        ?_, .turn ht hturned⟩)
      show Except.map _ _ = _
      rw [ht]
      rfl

theorem Entered.inv {x : IoEntry} (h : w.Inv) (hx : Entered w a x) (hs : Stepped x w') :
    w'.Inv := by
  cases hx with
  | done hk hsp hq hnone =>
    cases hs
    exact h.done hk hsp hq hnone
  | begins hin _ _ =>
    cases hs with
    | turn _ ht => exact hin.turned ht
  | resumes _ _ hin =>
    cases hs with
    | turn _ ht => exact hin.turned ht

/-- A step that does not halt. -/
theorem step_ok (h : w.Inv) (hs : w.step a = .ok w') :
    ∃ x, w.enter a = .ok x ∧ Entered w a x ∧ Stepped x w' := by
  rcases step_cases h a with ⟨_, herr⟩ | ⟨_, herr⟩ | ⟨_, x, w₁, hx, hentered, hok, hstep⟩
  · exact absurd (herr.symm.trans hs) (by simp)
  · exact absurd (herr.symm.trans hs) (by simp)
  · rw [hok] at hs
    cases hs
    exact ⟨x, hx, hentered, hstep⟩

theorem step_inv (h : w.Inv) (hs : w.step a = .ok w') : w'.Inv := by
  obtain ⟨x, _, hentered, hstep⟩ := step_ok h hs
  exact hentered.inv h hstep

theorem empty_inv (pages : Nat → Nat → UInt8) : (empty pages).Inv :=
  ⟨Kernel.empty_inv, fun _ => ⟨Nat.succ_pos _, Nat.zero_le _⟩, fun h => absurd h (by simp [empty]),
    fun h => absurd h (by simp [empty, Kernel.empty])⟩

/-- A state that some run reaches. -/
def Reached (w : Io) : Prop :=
  ∃ pages as, Run (fun w a w' => step w a = .ok w') (empty pages) as w

theorem Reached.inv (h : w.Reached) : w.Inv := by
  obtain ⟨pages, as, hr⟩ := h
  exact hr.invariant (empty_inv pages) fun _ _ _ h hs => step_inv h hs

end Io

/-! ## Closing -/

/-- **Closing never strands a sleeper.** In every run, under every schedule: who sleeps at an
end of a pipe has someone at the other end, and the pipe of a call that sleeps or has yet to
go on is still there. -/
theorem closing_strands_no_sleeper {w : Io} (h : w.Reached) :
    (∀ p q, p ∈ w.kernel.waitqs (.readers q) → ∃ Q, w.kernel.pipes.get q = some Q ∧ 0 < Q.writers)
      ∧ (∀ p q, p ∈ w.kernel.waitqs (.writers q) → ∃ Q, w.kernel.pipes.get q = some Q ∧ 0 < Q.readers)
      ∧ ∀ p c, w.calls p = some c → ∃ Q, w.kernel.pipes.get c.pipe = some Q := by
  have hinv := h.inv
  exact ⟨fun p q hp => hinv.files.served p q .reading hp, fun p q hp => hinv.files.served p q .writing hp,
    fun p c hc => (hinv.calls hc).1.pipe hinv.files⟩

/-- A process makes a pipe and forks, and the child waits for data. -/
def waitingChild : List IoAct :=
  [.create 0 0, .call 0 (.pipe2 0), .call 0 .fork, .read 1 3 10]

theorem closing_strands_no_sleeper_child : ∃ w : Io, w.Reached ∧ 1 ∈ w.kernel.waitqs (.readers 0)
    ∧ ∃ Q, w.kernel.pipes.get 0 = some Q ∧ 0 < Q.writers := by
  obtain ⟨w, hr, hprobe⟩ := Run.of_probe Io.step (.empty fun _ _ => 0) waitingChild
    (fun w => decide (1 ∈ w.kernel.waitqs (.readers 0))) (b := true) (by decide)
  have hreached : w.Reached := ⟨_, waitingChild, hr⟩
  have hmem := of_decide_eq_true hprobe
  exact ⟨w, hreached, hmem, (closing_strands_no_sleeper hreached).1 1 0 hmem⟩

/-! ## Halting -/

/-- **Pipes halt the kernel exactly when nothing is read from a full pipe.** -/
theorem pipe_halts_iff {w : Io} (h : w.Reached) (a : IoAct) :
    w.step a = .error .bug ↔ w.ReadsNothing a := by
  rcases Io.step_cases h.inv a with ⟨hn, herr⟩ | ⟨hn, herr⟩ | ⟨hn, x, w', _, _, hok, _⟩
  · rw [herr]
    exact ⟨fun h => absurd h (by simp), fun h => absurd h hn⟩
  · exact ⟨fun _ => hn, fun _ => herr⟩
  · rw [hok]
    exact ⟨fun h => absurd h (by simp), fun h => absurd h hn⟩

/-- A process fills a pipe. -/
def fullPipe : List IoAct :=
  [.create 0 0, .call 0 (.pipe2 0), .write 0 4 (List.replicate pageSize 0)]

/-- The action halts the kernel in a `SYSTEM_BUG_ON`. -/
def Io.halts (w : Io) (a : IoAct) : Bool :=
  match w.step a with
  | .error .bug => true
  | _ => false

theorem Io.halts_iff {w : Io} {a : IoAct} : w.halts a = true ↔ w.step a = .error .bug := by
  unfold halts
  split
  · exact ⟨fun _ => ‹_›, fun _ => rfl⟩
  · rename_i hne
    exact ⟨fun h => absurd h (by simp), fun h => absurd h hne⟩

theorem fullPipe_reached : ∃ w : Io, w.Reached ∧ w.step (.read 0 3 0) = .error .bug := by
  obtain ⟨w, hr, hprobe⟩ := Run.of_probe Io.step (.empty fun _ _ => 0) fullPipe
    (fun w => w.halts (.read 0 3 0)) (b := true) (by decide +kernel)
  exact ⟨w, ⟨_, fullPipe, hr⟩, Io.halts_iff.mp hprobe⟩

/-- After that, a read of no bytes halts the kernel. -/
theorem pipe_halts : ¬ ∀ (w : Io) (a : IoAct), w.Reached → w.step a ≠ .error .bug := by
  intro hsafe
  obtain ⟨w, hreached, hbug⟩ := fullPipe_reached
  exact hsafe w _ hreached hbug

theorem pipe_halts_iff_full : ∃ w : Io, w.Reached ∧ w.ReadsNothing (.read 0 3 0)
    ∧ w.step (.read 0 3 1) ≠ .error .bug := by
  obtain ⟨w, hreached, hbug⟩ := fullPipe_reached
  refine ⟨w, hreached, (pipe_halts_iff hreached _).mp hbug, fun h => ?_⟩
  exact absurd ((pipe_halts_iff hreached _).mp h).2.1 (by simp)

end Cyanurus
