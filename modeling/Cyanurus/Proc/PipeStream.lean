import Cyanurus.Proc.PipeRun
import Mathlib.Data.List.Infix

/-!
# The streams through pipes

A record is kept beside a run: the bytes that were stored in each pipe, each with the number
of the write that it comes from, the bytes that were delivered, and the writes that are
complete.

**`pipe_fifo`**: what was delivered, followed by what the buffer still holds, is what was
stored. **`write_atomic`**: a write of up to `PIPE_BUF` bytes is contiguous in the stream, if no
other write stores bytes while it waits for room with a part of its own stored. When one
does, the two are interleaved: **`write_torn`**.
-/

namespace Cyanurus

open Lts Kernel

/-! ## What turns move -/

namespace Kernel

variable {k : Kernel} {b : PipeBuffer} {p q written : Nat} {data : List UInt8} {c : PipeCall} {t : Turn}

/-- What a turn takes from the buffer, or puts into it. -/
theorem Turned.contents (h : Turned k b p c t) :
    match c with
    | .read .. => t.bytes ++ t.buffer.contents pageSize = b.contents pageSize
    | .write .. => t.buffer.contents pageSize = b.contents pageSize ++ t.bytes := by
  cases h with
  | eof => exact List.nil_append _
  | waitsForData => exact List.nil_append _
  | took _ _ hcontents =>
    rw [hcontents, List.take_append_drop]
  | broken => exact (List.append_nil _).symm
  | waitsForRoom => exact (List.append_nil _).symm
  | stored _ _ _ hcontents => exact hcontents
  | filled _ _ _ _ _ hcontents => exact hcontents

/-- How a write stands after a turn: it waits, or it has returned its size or an error. -/
theorem Turned.write (h : Turned k b p (.write q data written) t)
    (hle : written ≤ data.length) :
    (t.outcome.suspended = none ∧ t.outcome ≠ .returned data.length ∧ t.bytes = [])
      ∨ (t.outcome = .returned data.length ∧ t.bytes = (data.drop written).take (data.length - written)
        ∧ b.length < pageSize)
      ∨ ∃ m, t.outcome = .asleep (.write q data (written + m)) ∧ t.bytes = (data.drop written).take m
        ∧ (0 < m → b.length < pageSize ∧ written < data.length) := by
  cases h with
  | broken =>
    refine .inl ⟨rfl, fun h => ?_, rfl⟩
    have hneg : epipe = (data.length : Int) := Outcome.returned.inj h
    exact absurd hneg (by simp [epipe])
  | waitsForRoom => exact .inr (.inr ⟨0, rfl, by simp, fun h => absurd h (by simp)⟩)
  | stored hroom _ _ _ =>
    refine .inr (.inl ⟨rfl, ?_, hroom⟩)
    rw [List.take_of_length_le (by simp)]
  | filled _ _ hroom hmore _ _ =>
    exact .inr (.inr ⟨_, rfl, rfl, fun _ => ⟨hroom, by omega⟩⟩)

/-- A turn that stores bytes does so while there is room and something is left to store. -/
theorem Turned.stores (h : Turned k b p (.write q data written) t)
    (hle : written ≤ data.length) :
    t.bytes = [] ∨ (b.length < pageSize ∧ written < data.length) := by
  rcases h.write hle with ⟨_, _, hbytes⟩ | ⟨_, hbytes, hroom⟩ | ⟨m, _, hbytes, hm⟩
  · exact .inl hbytes
  · by_cases hall : written < data.length
    · exact .inr ⟨hroom, hall⟩
    · exact .inl (by rw [hbytes, Nat.sub_eq_zero_of_le (Nat.le_of_not_lt hall), List.take_zero])
  · rcases Nat.eq_zero_or_pos m with rfl | hpos
    · exact .inl (by rw [hbytes, List.take_zero])
    · exact .inr (hm hpos)

end Kernel

/-! ## The record -/

structure PipeLog where
  io : Io
  stored : Nat → List (Nat × UInt8)
  delivered : Nat → List UInt8
  /-- The writes that returned their size: the pipe, the number and the data. -/
  completed : List (Nat × Nat × List UInt8)
  /-- How many writes have begun. -/
  begun : Nat
  /-- The last write of each process. -/
  number : Nat → Nat

namespace PipeLog

def empty (pages : Nat → Nat → UInt8) : PipeLog :=
  ⟨.empty pages, fun _ => [], fun _ => [], [], 0, fun _ => 0⟩

/-- The number of the write that `p` is in, or begins. -/
def current (s : PipeLog) (p : Nat) : Nat := if (s.io.calls p).isSome then s.number p else s.begun

/-- The record after a turn. -/
def record (s : PipeLog) (w : Io) (p : Nat) (c : PipeCall) (t : Turn) : PipeLog :=
  match c with
  | .read q _ _ =>
    { s with
      io := w.after p c t
      delivered := Function.update s.delivered q (s.delivered q ++ t.bytes) }
  | .write q data _ =>
    { s with
      io := w.after p c t
      stored := Function.update s.stored q (s.stored q ++ t.bytes.map (Prod.mk (s.current p)))
      completed := if t.outcome = .returned data.length then (q, s.current p, data) :: s.completed
        else s.completed
      begun := if (s.io.calls p).isSome then s.begun else s.begun + 1
      number := Function.update s.number p (s.current p) }

def step (s : PipeLog) (a : IoAct) : Except Halt PipeLog :=
  s.io.enter a >>= fun entry =>
    match entry with
    | .done w => .ok { s with io := w }
    | .turn w p c => (w.kernel.turn (w.buffers c.pipe) p c).map (s.record w p c)

variable {s s' : PipeLog} {a : IoAct} {w : Io} {p q : Nat} {c : PipeCall} {t : Turn}

theorem record_io : (s.record w p c t).io = w.after p c t := by
  cases c with
  | read => rfl
  | write => rfl

/-- What an entry leads to. -/
inductive Recorded (s : PipeLog) : IoEntry → PipeLog → Prop
  | done {w : Io} : Recorded s (.done w) { s with io := w }
  | turn {w : Io} {p : Nat} {c : PipeCall} {t : Turn} : Turned w.kernel (w.buffers c.pipe) p c t →
      Recorded s (.turn w p c) (s.record w p c t)

/-- A step of the record is a step of the run. -/
theorem step_io (hs : s.step a = .ok s') : s.io.step a = .ok s'.io := by
  obtain ⟨x, hx, hs⟩ := bind_eq_ok hs
  unfold Io.step
  rw [hx]
  cases x with
  | done w =>
    cases hs
    rfl
  | turn w p c =>
    obtain ⟨t, ht, rfl⟩ := map_eq_ok hs
    show Except.map _ _ = _
    rw [ht, record_io]
    rfl

theorem step_ok (h : s.io.Inv) (hs : s.step a = .ok s') :
    ∃ x, s.io.enter a = .ok x ∧ Io.Entered s.io a x ∧ Recorded s x s' := by
  obtain ⟨x, hx, hentered, hstep⟩ := Io.step_ok h (step_io hs)
  refine ⟨x, hx, hentered, ?_⟩
  generalize s'.io = w' at hstep
  obtain ⟨x', hx', hs⟩ := bind_eq_ok hs
  rw [hx] at hx'
  cases hx'
  cases hstep with
  | done =>
    cases hs
    exact .done
  | turn ht hturned =>
    obtain ⟨t, ht', rfl⟩ := map_eq_ok hs
    rw [ht] at ht'
    cases ht'
    exact .turn hturned

/-! ## First in, first out -/

/-- The bytes that were delivered and those in the buffer are those that were stored. -/
def Stream (s : PipeLog) : Prop :=
  ∀ q, s.delivered q ++ (s.io.buffers q).contents pageSize = (s.stored q).map Prod.snd

theorem Stream.record (h : s.Stream) (hw : w.buffers = s.io.buffers)
    (ht : Turned w.kernel (w.buffers c.pipe) p c t) : (s.record w p c t).Stream := by
  intro q
  rw [record_io]
  have hcontents := ht.contents
  have hq₀ := h q
  cases c with
  | read q' size done =>
    by_cases hq : q = q'
    · subst hq
      have hbuf : (w.after p (.read q size done) t).buffers q = t.buffer := Function.update_self ..
      have hdelivered : (s.record w p (.read q size done) t).delivered q = s.delivered q ++ t.bytes :=
        Function.update_self ..
      rw [hbuf, hdelivered, List.append_assoc, hcontents, hw]
      exact hq₀
    · have hbuf : (w.after p (.read q' size done) t).buffers q = s.io.buffers q := by
        rw [← hw]
        exact Function.update_of_ne hq ..
      have hdelivered : (s.record w p (.read q' size done) t).delivered q = s.delivered q :=
        Function.update_of_ne hq ..
      rw [hbuf, hdelivered]
      exact hq₀
  | write q' data written =>
    by_cases hq : q = q'
    · subst hq
      have hbuf : (w.after p (.write q data written) t).buffers q = t.buffer := Function.update_self ..
      have hstored : (s.record w p (.write q data written) t).stored q
          = s.stored q ++ t.bytes.map (Prod.mk (s.current p)) := Function.update_self ..
      have hcontents : t.buffer.contents pageSize = (w.buffers q).contents pageSize ++ t.bytes :=
        hcontents
      rw [hbuf, hstored, hcontents, hw, List.map_append, ← hq₀]
      simp [PipeLog.record]
    · have hbuf : (w.after p (.write q' data written) t).buffers q = s.io.buffers q := by
        rw [← hw]
        exact Function.update_of_ne hq ..
      have hstored : (s.record w p (.write q' data written) t).stored q = s.stored q :=
        Function.update_of_ne hq ..
      rw [hbuf, hstored]
      exact hq₀

theorem step_stream (h : s.io.Inv) (hstream : s.Stream) (hs : s.step a = .ok s') : s'.Stream := by
  obtain ⟨x, _, hentered, hstep⟩ := step_ok h hs
  cases hentered with
  | done =>
    cases hstep
    exact hstream
  | begins =>
    cases hstep with
    | turn ht => exact hstream.record rfl ht
  | resumes =>
    cases hstep with
    | turn ht => exact hstream.record rfl ht

/-- A read that finds bytes takes as many as it asks for, up to all of them. -/
theorem read_returns {size done : Nat} (h : w.InCall p (.read q size done)) (hsize : 1 ≤ size)
    (hpos : 0 < (w.buffers q).length) : ∃ t,
      w.kernel.turn (w.buffers q) p (.read q size done) = .ok t
      ∧ t.outcome = .returned ↑(min size (w.buffers q).length)
      ∧ t.bytes = ((w.buffers q).contents pageSize).take (min size (w.buffers q).length) := by
  obtain ⟨Q, hQ⟩ := h.holds.pipe h.inv.files
  obtain ⟨P, hP, _⟩ := h.runs
  have hdone : done = 0 := h.wf
  subst hdone
  rcases turn_cases h.wf hQ hP.get (h.inv.wf q) with ⟨hn, _⟩ | ⟨_, t, ht, hturned⟩
  · exact absurd hn.1 (Nat.ne_of_gt hsize)
  · refine ⟨t, ht, ?_⟩
    cases hturned with
    | eof _ _ hempty => exact absurd hempty (Nat.ne_of_gt hpos)
    | waitsForData _ _ hempty => exact absurd hempty (Nat.ne_of_gt hpos)
    | took =>
      simp only [Nat.sub_zero, Nat.zero_add, true_and]
      rw [← List.take_take, List.take_of_length_le (i := (w.buffers q).length) (by simp)]

theorem run_inv {pages : Nat → Nat → UInt8} {as : List IoAct}
    (hr : Run (fun s a s' => PipeLog.step s a = .ok s') (empty pages) as s) : s.io.Inv ∧ s.Stream := by
  have hempty : (empty pages).Stream := fun q => rfl
  exact hr.invariant (I := fun s => s.io.Inv ∧ s.Stream) ⟨Io.empty_inv pages, hempty⟩
    fun s a s' h hs => ⟨Io.step_inv h.1 (step_io hs), step_stream h.1 h.2 hs⟩

end PipeLog

/-- **A pipe is a FIFO byte stream**, for all readers and writers and under every schedule: the
bytes that were delivered, followed by those still in the buffer, are the bytes that were
stored; the buffer stays in its bounds; and a read that finds bytes returns as many as it
asks for, up to all of them. -/
theorem pipe_fifo {pages : Nat → Nat → UInt8} {as : List IoAct} {s : PipeLog}
    (hr : Run (fun s a s' => PipeLog.step s a = .ok s') (.empty pages) as s) :
    (∀ q, s.delivered q ++ (s.io.buffers q).contents pageSize = (s.stored q).map Prod.snd)
      ∧ (∀ q, (s.io.buffers q).offset < pageSize ∧ (s.io.buffers q).length ≤ pageSize)
      ∧ ∀ a w p q size done, s.io.enter a = .ok (.turn w p (.read q size done)) → 1 ≤ size →
        0 < (w.buffers q).length → ∃ t, w.kernel.turn (w.buffers q) p (.read q size done) = .ok t
          ∧ t.outcome = .returned ↑(min size (w.buffers q).length)
          ∧ t.bytes = ((w.buffers q).contents pageSize).take (min size (w.buffers q).length) := by
  obtain ⟨hinv, hstream⟩ := PipeLog.run_inv hr
  refine ⟨hstream, fun q => ⟨(hinv.wf q).offset, (hinv.wf q).length⟩, fun a w p q size done ha => ?_⟩
  refine PipeLog.read_returns ?_
  rcases Io.enter_cases hinv a with herr | ⟨x, hx, hentered⟩
  · exact absurd (herr.symm.trans ha) (by simp)
  · rw [hx] at ha
    cases ha
    cases hentered with
    | begins hin _ _ => exact hin
    | resumes _ _ hin => exact hin

/-- The parent and a child write, and a child that waited reads. -/
def threeParties : List IoAct :=
  [.create 0 0, .call 0 (.pipe2 0), .call 0 .fork, .call 0 .fork, .read 1 3 3, .write 0 4 [1, 2],
    .write 2 4 [3, 4], .resume 1]

theorem pipe_fifo_three : ∃ s : PipeLog,
    Run (fun s a s' => PipeLog.step s a = .ok s') (.empty fun _ _ => 0) threeParties s
      ∧ s.delivered 0 = [1, 2, 3]
      ∧ s.delivered 0 ++ (s.io.buffers 0).contents pageSize = (s.stored 0).map Prod.snd := by
  obtain ⟨s, hr, hprobe⟩ := Run.of_probe PipeLog.step (.empty fun _ _ => 0) threeParties
    (fun s => s.delivered 0) (b := [1, 2, 3]) (by decide)
  exact ⟨s, hr, hprobe, (pipe_fifo hr).1 0⟩

/-! ## Atomic writes -/

/-- The call is a write of at most `PIPE_BUF` bytes to the pipe, and a part of them is stored. -/
def PipeCall.Torn (q : Nat) : PipeCall → Prop
  | .read .. => False
  | .write pipe data written => pipe = q ∧ data.length ≤ pipeBuf ∧ 0 < written

instance (q : Nat) (c : PipeCall) : Decidable (c.Torn q) := by
  cases c <;> unfold PipeCall.Torn <;> infer_instance

/-- Where the action stores bytes in a pipe, no other process waits for room there with a
part of a write of at most `PIPE_BUF` bytes stored. -/
def Io.Alone (w : Io) (a : IoAct) : Prop :=
  match w.enter a with
  | .ok (.turn _ p (.write q data written)) => (w.buffers q).length < pageSize →
      written < data.length → ∀ r < w.kernel.processes.next, r ≠ p → ∀ c ∈ w.calls r, ¬ c.Torn q
  | _ => True

instance (w : Io) (a : IoAct) : Decidable (w.Alone a) := by
  unfold Io.Alone
  split <;> infer_instance

namespace PipeLog

variable {s s' : PipeLog} {a : IoAct} {w : Io} {p q n : Nat} {c : PipeCall} {t : Turn}
  {data : List UInt8} {written : Nat}

/-- The bytes of write `n`. -/
def tagged (n : Nat) (data : List UInt8) : List (Nat × UInt8) := data.map (Prod.mk n)

structure Atomic (s : PipeLog) : Prop where
  /-- The part of a write that is stored is the end of the stream. -/
  partly : ∀ {p q data written}, s.io.calls p = some (.write q data written) →
    data.length ≤ pipeBuf → 0 < written → tagged (s.number p) (data.take written) <:+ s.stored q
  complete : ∀ {q n data}, (q, n, data) ∈ s.completed → data.length ≤ pipeBuf →
    tagged n data <:+: s.stored q

/-- A write that goes on puts its bytes behind those that it has stored. -/
theorem suffix_append {l : List (Nat × UInt8)} (m : Nat)
    (h : 0 < written → tagged n (data.take written) <:+ l) :
    tagged n (data.take (written + m)) <:+ l ++ tagged n ((data.drop written).take m) := by
  have hsplit : tagged n (data.take (written + m))
      = tagged n (data.take written) ++ tagged n ((data.drop written).take m) := by
    rw [List.take_add]
    exact List.map_append
  rw [hsplit]
  rcases Nat.eq_zero_or_pos written with h0 | hpos
  · subst h0
    exact List.suffix_append _ _
  · obtain ⟨pre, hpre⟩ := h hpos
    exact ⟨pre, by rw [← hpre, List.append_assoc]⟩

/-- A turn of a write. -/
theorem Atomic.recordWrite (h : s.Atomic) (hcalls : w.calls = s.io.calls)
    (hin : w.InCall p (.write q data written)) (hfresh : s.io.calls p = none → written = 0)
    (ht : Turned w.kernel (w.buffers q) p (.write q data written) t)
    (halone : (w.buffers q).length < pageSize → written < data.length →
      ∀ r, r ≠ p → ∀ c ∈ s.io.calls r, ¬ c.Torn q) :
    (s.record w p (.write q data written) t).Atomic := by
  have hle : written ≤ data.length := hin.wf
  generalize hs' : s.record w p (.write q data written) t = s'
  have hstored : s'.stored = Function.update s.stored q (s.stored q ++ tagged (s.current p) t.bytes) := by
    subst hs'
    rfl
  -- the part that this write has stored before
  have hown : data.length ≤ pipeBuf → 0 < written →
      tagged (s.current p) (data.take written) <:+ s.stored q := by
    intro hsmall hpos
    have hcall : s.io.calls p = some (.write q data written) := by
      rw [← hcalls]
      refine hin.call.resolve_left fun hnone => ?_
      rw [hcalls] at hnone
      exact Nat.ne_of_gt hpos (hfresh hnone)
    have hcurrent : s.current p = s.number p := by simp [current, hcall]
    rw [hcurrent]
    exact h.partly hcall hsmall hpos
  have hgrows : ∀ q', s.stored q' <+: s'.stored q' := by
    intro q'
    rw [hstored]
    by_cases hq : q' = q
    · subst hq
      rw [Function.update_self]
      exact List.prefix_append _ _
    · rw [Function.update_of_ne hq]
  refine ⟨fun {r q' data' written'} hcall hsmall hpos => ?_, fun {q' n data'} hmem hsmall => ?_⟩
  · have hcall : Function.update s.io.calls p t.outcome.suspended r
        = some (.write q' data' written') := by
      rw [← hcalls]
      subst hs'
      exact hcall
    have hnumber : s'.number r = Function.update s.number p (s.current p) r := by
      subst hs'
      rfl
    rw [hnumber, hstored]
    by_cases hrp : r = p
    · -- the write itself, if it waits
      subst hrp
      rw [Function.update_self] at hcall ⊢
      rcases ht.write hle with ⟨hnone, _, _⟩ | ⟨hret, _⟩ | ⟨m, hasleep, hbytes, _⟩
      · exact absurd (hnone.symm.trans hcall) (by simp)
      · rw [hret] at hcall
        exact absurd hcall (by simp [Outcome.suspended])
      · rw [hasleep] at hcall
        cases hcall
        rw [Function.update_self, hbytes]
        exact suffix_append m (hown hsmall)
    · -- another write that waits
      rw [Function.update_of_ne hrp] at hcall ⊢
      have hpartly := h.partly hcall hsmall hpos
      by_cases hq : q' = q
      · subst hq
        rcases ht.stores hle with hbytes | ⟨hroom, hmore⟩
        · rw [hbytes]
          simpa [tagged] using hpartly
        · exact absurd ⟨rfl, hsmall, hpos⟩ (halone hroom hmore r hrp _ hcall)
      · rw [Function.update_of_ne hq]
        exact hpartly
  · have hmem : (q', n, data') ∈ if t.outcome = .returned data.length
        then (q, s.current p, data) :: s.completed else s.completed := by
      subst hs'
      exact hmem
    have hold : (q', n, data') ∈ s.completed → tagged n data' <:+: s'.stored q' := fun hmem =>
      (h.complete hmem hsmall).trans (hgrows q').isInfix
    split at hmem
    · rename_i hret
      rcases List.mem_cons.mp hmem with heq | hmem
      · cases heq
        rcases ht.write hle with ⟨_, hne, _⟩ | ⟨_, hbytes, _⟩ | ⟨m, hasleep, _⟩
        · exact absurd hret hne
        · have hsuffix := suffix_append (l := s.stored q) (data.length - written) (hown hsmall)
          rw [Nat.add_sub_cancel' hle, List.take_length, ← hbytes] at hsuffix
          rw [hstored, Function.update_self]
          exact hsuffix.isInfix
        · exact absurd (hret.symm.trans hasleep) (by simp)
      · exact hold hmem
    · exact hold hmem

/-- A turn of a read stores nothing, and a read that waits is no write. -/
theorem Atomic.recordRead {size done : Nat} (h : s.Atomic) (hcalls : w.calls = s.io.calls)
    (ht : Turned w.kernel (w.buffers q) p (.read q size done) t) :
    (s.record w p (.read q size done) t).Atomic := by
  refine ⟨fun {r q' data' written'} hcall hsmall hpos => ?_, h.complete⟩
  have hcall : Function.update s.io.calls p t.outcome.suspended r
      = some (.write q' data' written') := by
    rw [← hcalls]
    exact hcall
  by_cases hrp : r = p
  · rw [hrp] at hcall
    cases ht with
    | eof | took => exact absurd hcall (by simp [Outcome.suspended])
    | waitsForData => exact absurd hcall (by simp [Outcome.suspended])
  · rw [Function.update_of_ne hrp] at hcall
    exact h.partly hcall hsmall hpos

theorem step_atomic (h : s.io.Inv) (hatomic : s.Atomic) (hok : s.io.Alone a) (hs : s.step a = .ok s') :
    s'.Atomic := by
  obtain ⟨x, hx, hentered, hstep⟩ := step_ok h hs
  -- the condition is about all processes that are in a call
  have halone : ∀ {w₁ p q data written}, x = .turn w₁ p (.write q data written) →
      (s.io.buffers q).length < pageSize → written < data.length →
      ∀ r, r ≠ p → ∀ c ∈ s.io.calls r, ¬ c.Torn q := by
    intro w₁ p q data written hx' hroom hmore r hrp c hc
    unfold Io.Alone at hok
    rw [hx, hx'] at hok
    obtain ⟨R, _, _, hR, _⟩ := (h.calls hc).1
    exact hok hroom hmore r (Store.lt_next hR) hrp c hc
  cases hentered with
  | done =>
    cases hstep
    exact ⟨hatomic.partly, hatomic.complete⟩
  | @begins p c hin hnone hfresh =>
    cases hstep with
    | turn ht =>
      cases c with
      | read q size done => exact hatomic.recordRead rfl ht
      | write q data written => exact hatomic.recordWrite rfl hin (fun _ => hfresh) ht (halone rfl)
  | @resumes p c _ hc hin =>
    cases hstep with
    | turn ht =>
      cases c with
      | read q size done => exact hatomic.recordRead rfl ht
      | write q data written =>
        exact hatomic.recordWrite rfl hin (fun hnone => absurd (hc.symm.trans hnone) (by simp)) ht
          (halone rfl)

end PipeLog

/-- **Writes of up to `PIPE_BUF` bytes are atomic** in runs in which no write stores bytes in a
pipe while another one, of at most `PIPE_BUF` bytes, waits for room there with a part of it
stored: the bytes of each that is complete are contiguous in the stream of which a part was
delivered and the rest is in the buffer. -/
theorem write_atomic {pages : Nat → Nat → UInt8} {as : List IoAct} {s : PipeLog}
    (hr : Run (Guarded (fun s a => s.io.Alone a) fun s a s' => PipeLog.step s a = .ok s')
      (.empty pages) as s) :
    (∀ q n data, (q, n, data) ∈ s.completed → data.length ≤ pipeBuf →
        data.map (Prod.mk n) <:+: s.stored q)
      ∧ ∀ q, s.delivered q ++ (s.io.buffers q).contents pageSize = (s.stored q).map Prod.snd := by
  have hempty : (PipeLog.empty pages).Atomic :=
    ⟨fun h => absurd h (by simp [PipeLog.empty, Io.empty]), fun h => absurd h (by simp [PipeLog.empty])⟩
  have hatomic := hr.invariant (I := fun s => s.io.Inv ∧ s.Atomic) ⟨Io.empty_inv pages, hempty⟩
    fun s a s' h hs => ⟨Io.step_inv h.1 (PipeLog.step_io hs.2), PipeLog.step_atomic h.1 h.2 hs.1 hs.2⟩
  exact ⟨fun q n data => hatomic.2.complete, (PipeLog.run_inv (hr.mono And.right)).2⟩

/-- The pipe is full up to one byte when a child writes two: it waits for room with one of
them stored, and the parent makes room. -/
def nearlyFull : List IoAct :=
  [.create 0 0, .call 0 (.pipe2 0), .call 0 .fork, .write 0 4 (List.replicate 4095 0),
    .write 1 4 [1, 1], .read 0 3 2]

theorem write_atomic_alone : ∃ s : PipeLog,
    Run (Guarded (fun s a => s.io.Alone a) fun s a s' => PipeLog.step s a = .ok s')
      (.empty fun _ _ => 0) (nearlyFull ++ [.resume 1, .write 0 4 [2]]) s
    ∧ (0, 1, [1, 1]) ∈ s.completed ∧ [((1 : Nat), (1 : UInt8)), (1, 1)] <:+: s.stored 0 := by
  obtain ⟨s, hr, hprobe⟩ := Run.of_checked_probe (fun s a => s.io.Alone a) PipeLog.step .unknown
    (.empty fun _ _ => 0) (nearlyFull ++ [.resume 1, .write 0 4 [2]])
    (fun s => decide ((0, 1, [1, 1]) ∈ s.completed)) (b := true) (by decide +kernel)
  have hmem := of_decide_eq_true hprobe
  exact ⟨s, hr, hmem, (write_atomic hr).1 0 1 [1, 1] hmem (by decide)⟩

/-- The parent writes before the child goes on. -/
theorem write_torn : ¬ ∀ (pages : Nat → Nat → UInt8) (as : List IoAct) (s : PipeLog),
    Run (fun s a s' => PipeLog.step s a = .ok s') (.empty pages) as s →
    ∀ q n data, (q, n, data) ∈ s.completed → data.length ≤ pipeBuf →
      data.map (Prod.mk n) <:+: s.stored q := by
  intro hatomic
  obtain ⟨s, hr, hprobe⟩ := Run.of_probe PipeLog.step (.empty fun _ _ => 0)
    (nearlyFull ++ [.write 0 4 [2], .resume 1])
    (fun s => (decide ((0, 1, [1, 1]) ∈ s.completed), (s.stored 0).filter fun x => x.1 ≠ 0))
    (b := (true, [(1, 1), (2, 2), (1, 1)])) (by decide +kernel)
  have hmem := of_decide_eq_true (congrArg Prod.fst hprobe)
  have hfilter : (s.stored 0).filter (fun x => x.1 ≠ 0) = [(1, 1), (2, 2), (1, 1)] :=
    congrArg Prod.snd hprobe
  have hinfix := (hatomic _ _ s hr 0 1 [1, 1] hmem (by decide)).filter fun x => x.1 ≠ 0
  rw [hfilter] at hinfix
  exact absurd hinfix (by decide)

end Cyanurus
