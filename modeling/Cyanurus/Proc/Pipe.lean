import Cyanurus.Lib.RingBuffer
import Cyanurus.Proc.FileCount

/-!
# Reading and writing pipes

The loops of `pipe.c`. A call copies runs of bytes between the caller and the page of the
pipe, wakes a process at the other end after each run, and sleeps when there is nothing to
read or no room to write; it goes on from there when it is woken. A *turn* of a call is what
it does until it returns or sleeps.

`Turned` lists the turns there are. **`turn_cases`**: every turn on a pipe is one of them,
except that reading no bytes from a full pipe runs into a `SYSTEM_BUG_ON`.
-/

namespace Cyanurus

open Kernel

/-- `PIPE_BUF` -/
def pipeBuf : Nat := 4096

def sigpipe : Int := 13
def epipe : Int := -32

/-- The page of a `struct pipe` with its `offset` and `length`. -/
abbrev PipeBuffer := RingBuffer UInt8

/-- A call on a pipe that has not returned, with the local variables that matter when it
goes on. -/
inductive PipeCall where
  | read (pipe size read : Nat)
  | write (pipe : Nat) (data : List UInt8) (written : Nat)
deriving DecidableEq, Repr

def PipeCall.pipe : PipeCall → Nat
  | .read pipe _ _ => pipe
  | .write pipe _ _ => pipe

/-- The end that the call is made at. -/
def PipeCall.side : PipeCall → PipeEnd
  | .read .. => .reading
  | .write .. => .writing

/-- The local variables of a call make sense: a read that sleeps has read nothing. -/
def PipeCall.Wf : PipeCall → Prop
  | .read _ _ done => done = 0
  | .write _ data written => written ≤ data.length

/-- The call has just been made. -/
def PipeCall.Fresh : PipeCall → Prop
  | .read _ _ done => done = 0
  | .write _ _ written => written = 0

theorem PipeCall.Fresh.wf {c : PipeCall} (h : c.Fresh) : c.Wf := by
  cases c with
  | read q size done => exact h
  | write q data written => exact Nat.le_trans (Nat.le_of_eq h) (Nat.zero_le _)

/-- The call asks for no bytes of a full pipe. -/
def PipeCall.ReadsNothing (b : PipeBuffer) : PipeCall → Prop
  | .read _ size _ => size = 0 ∧ b.length = pageSize
  | .write .. => False

inductive Outcome where
  | returned (r : Int)
  | asleep (call : PipeCall)
deriving DecidableEq, Repr

def Outcome.suspended : Outcome → Option PipeCall
  | .returned _ => none
  | .asleep call => some call

structure Turn where
  kernel : Kernel
  buffer : PipeBuffer
  /-- The bytes that were copied. -/
  bytes : List UInt8
  outcome : Outcome

namespace Kernel

/-- The loop of `pipe_read` by process `p`. -/
def pipeRead (p pipe size : Nat) :
    Nat → Kernel → PipeBuffer → Nat → List UInt8 → Except Halt Turn
  | 0, _, _, _, _ => .error .stuck
  | fuel + 1, k, b, read, bytes =>
    match k.pipes.get pipe with
    | none => .error .fault
    | some Q =>
      if b.length = 0 then
        if Q.writers = 0 then .ok ⟨k, b, bytes, .returned 0⟩
        else .ok ⟨k.processSleep p (.readers pipe) .other, b, bytes, .asleep (.read pipe size read)⟩
      else
        let remaining := b.readable pageSize
        let length := if remaining > size - read then size - read else remaining
        let bytes := bytes ++ b.front length
        let read := read + length
        let b := b.drop pageSize length
        if b.offset ≥ pageSize ∨ b.length ≥ pageSize then .error .bug
        else
          let k := (k.processWake (.writers pipe)).2
          if b.length = 0 ∨ size = read then .ok ⟨k, b, bytes, .returned read⟩
          else pipeRead p pipe size fuel k b read bytes

/-- The loop of `pipe_write` by process `p`. -/
def pipeWrite (p pipe : Nat) (data : List UInt8) :
    Nat → Kernel → PipeBuffer → Nat → List UInt8 → Except Halt Turn
  | 0, _, _, _, _ => .error .stuck
  | fuel + 1, k, b, written, bytes =>
    match k.pipes.get pipe with
    | none => .error .fault
    | some Q =>
      if Q.readers = 0 then
        match k.processes.get p with
        | none => .error .fault
        | some P => .ok ⟨(k.processKill P.id sigpipe).2, b, bytes, .returned epipe⟩
      else if b.length = pageSize then
        .ok ⟨k.processSleep p (.writers pipe) .other, b, bytes, .asleep (.write pipe data written)⟩
      else
        let remaining := b.writable pageSize
        let length := if remaining < data.length - written then remaining else data.length - written
        let b := b.push pageSize (fun i => data.getD i 0) written length
        let bytes := bytes ++ (data.drop written).take length
        let written := written + length
        let k := (k.processWake (.readers pipe)).2
        if b.length > pageSize then .error .bug
        else if data.length = written then .ok ⟨k, b, bytes, .returned written⟩
        else pipeWrite p pipe data fuel k b written bytes

/-- A turn of process `p` in a call on a pipe. Each round of the loops but the last copies a
byte at least. -/
def turn (k : Kernel) (b : PipeBuffer) (p : Nat) : PipeCall → Except Halt Turn
  | .read pipe size read => pipeRead p pipe size (size - read + 1) k b read []
  | .write pipe data written => pipeWrite p pipe data (data.length - written + 1) k b written []

/-! ## Waking while data is moved -/

variable {k : Kernel} {b : PipeBuffer} {p q : Nat} {Q : Pipe} {P : Process}

/-- Waking once and then up to `n` times. -/
theorem wakeAll_wake (k : Kernel) (q : Waitq) (n : Nat) :
    wakeAll q n (k.processWake q).2 = wakeAll q (n + 1) k := by
  have hempty : ∀ n, ∀ k : Kernel, k.waitqs q = [] → wakeAll q n k = k := by
    intro n k hq
    cases n with
    | zero => rfl
    | succ n =>
      unfold wakeAll processWake
      rw [hq]
  rw [wakeAll]
  cases hq : k.waitqs q with
  | nil =>
    have hwake : k.processWake q = (false, k) := by
      unfold processWake
      rw [hq]
    rw [hwake]
    exact hempty n k hq
  | cons r rest =>
    have hwake : (k.processWake q).1 = true := by
      unfold processWake
      rw [hq]
    generalize k.processWake q = r at hwake ⊢
    obtain ⟨woken, k'⟩ := r
    cases hwake
    rfl

theorem processWake_pipes (k : Kernel) (q : Waitq) : (k.processWake q).2.pipes = k.pipes := by
  unfold processWake
  cases k.waitqs q with
  | nil => rfl
  | cons r rest => rfl

/-! ## Reading -/

/-- **A read takes what it asks for, up to what there is**, in one turn, and wakes a writer
after each run. -/
theorem pipeRead_took {size : Nat} : ∀ {fuel read : Nat} {k : Kernel} {b : PipeBuffer}
    (bytes : List UInt8), k.pipes.get q = some Q → b.Wf pageSize → 0 < b.length → read ≤ size →
    size - read < fuel → ¬ (size = read ∧ b.length = pageSize) → ∃ b' n,
      pipeRead p q size fuel k b read bytes = .ok ⟨wakeAll (.writers q) (n + 1) k, b',
        bytes ++ (b.contents pageSize).take (size - read),
        .returned ↑(read + min (size - read) b.length)⟩
      ∧ b'.Wf pageSize ∧ b'.contents pageSize = (b.contents pageSize).drop (size - read) := by
  intro fuel
  induction fuel with
  | zero =>
    intro read k b bytes hQ hwf hpos hread hfuel hbug
    exact absurd hfuel (Nat.not_lt_zero _)
  | succ fuel ih =>
    intro read k b bytes hQ hwf hpos hread hfuel hbug
    obtain ⟨hrpos, hrle, hrend⟩ := hwf.readable hpos
    unfold pipeRead
    rw [hQ]
    simp only [if_neg (Nat.ne_of_gt hpos)]
    generalize hm : (if b.readable pageSize > size - read then size - read
      else b.readable pageSize) = m
    have hmle : m ≤ size - read ∧ m ≤ b.readable pageSize
        ∧ (m = size - read ∨ m = b.readable pageSize) := by
      split at hm <;> omega
    have hlen : (b.drop pageSize m).length = b.length - m := rfl
    have hwf' := hwf.drop m
    have hwle := hwf.length
    rw [if_neg (by have := hwf'.offset; omega), RingBuffer.front_eq_take (n := pageSize) (by omega) (by omega)]
    by_cases hdone : (b.drop pageSize m).length = 0 ∨ size = read + m
    · -- the last run: nothing is left, or nothing more is asked for
      rw [if_pos hdone]
      have htake : (b.contents pageSize).take m = (b.contents pageSize).take (size - read) := by
        rcases hdone with h | h
        · rw [List.take_of_length_le (by simp; omega), List.take_of_length_le (by simp; omega)]
        · rw [show m = size - read by omega]
      have hdrop : (b.contents pageSize).drop m = (b.contents pageSize).drop (size - read) := by
        rcases hdone with h | h
        · rw [List.drop_of_length_le (by simp; omega), List.drop_of_length_le (by simp; omega)]
        · rw [show m = size - read by omega]
      refine ⟨_, 0, ?_, hwf', by rw [RingBuffer.contents_drop, hdrop]⟩
      rw [htake, show m = min (size - read) b.length by omega, ← wakeAll_wake]
      rfl
    · -- the run ends at the end of the page, and the rest follows from its start
      rw [if_neg hdone]
      obtain ⟨b', n, hrest, hb', hcontents⟩ := @ih (read + m) (k.processWake (.writers q)).2 _
        (bytes ++ (b.contents pageSize).take m) ((processWake_pipes ..).symm ▸ hQ) hwf'
        (by omega) (by omega) (by omega) (by omega)
      have hsize : size - read = m + (size - (read + m)) := by omega
      refine ⟨b', n + 1, ?_, hb', ?_⟩
      · rw [hrest, wakeAll_wake, RingBuffer.contents_drop, List.append_assoc, hsize, List.take_add]
        congr 4
        omega
      · rw [hcontents, RingBuffer.contents_drop, List.drop_drop, hsize]

/-! ## Writing -/

/-- The bytes of a run that is copied from `data`. -/
theorem map_getD_eq_take {data : List UInt8} {a m : Nat} (h : a + m ≤ data.length) :
    ((List.range m).map fun i => data.getD (a + i) 0) = (data.drop a).take m := by
  apply List.ext_getElem?
  intro i
  rw [List.getElem?_take, List.getElem?_drop]
  by_cases hi : i < m
  · rw [if_pos hi]
    simp [List.getElem?_range hi, show a + i < data.length by omega]
  · simp [show m ≤ i by omega]

/-- A write to a full pipe sleeps. -/
theorem pipeWrite_full {data : List UInt8} (fuel written : Nat) (bytes : List UInt8)
    (hQ : k.pipes.get q = some Q) (hr : 0 < Q.readers) (hb : b.length = pageSize) :
    pipeWrite p q data (fuel + 1) k b written bytes
      = .ok ⟨k.processSleep p (.writers q) .other, b, bytes, .asleep (.write q data written)⟩ := by
  unfold pipeWrite
  rw [hQ]
  simp only [if_neg (Nat.ne_of_gt hr), if_pos hb]

/-- How far a write comes when there is room, having stored `stored`: it returns when that
was all, and sleeps otherwise. -/
def writeEnd (p q : Nat) (data : List UInt8) (written : Nat) (stored : List UInt8) (k : Kernel) :
    Kernel × Outcome :=
  if data.length = written + stored.length then (k, .returned data.length)
  else (k.processSleep p (.writers q) .other, .asleep (.write q data (written + stored.length)))

/-- **A write stores what there is room for** in one turn, and wakes a reader after each
run. -/
theorem pipeWrite_stored {data : List UInt8} : ∀ {fuel written : Nat} {k : Kernel} {b : PipeBuffer}
    (bytes : List UInt8), k.pipes.get q = some Q → 0 < Q.readers → b.Wf pageSize →
    b.length < pageSize → written ≤ data.length → data.length - written < fuel → ∃ b' n,
      let stored := (data.drop written).take (pageSize - b.length)
      let e := writeEnd p q data written stored (wakeAll (.readers q) (n + 1) k)
      pipeWrite p q data fuel k b written bytes = .ok ⟨e.1, b', bytes ++ stored, e.2⟩
      ∧ b'.Wf pageSize ∧ b'.contents pageSize = b.contents pageSize ++ stored := by
  intro fuel
  induction fuel with
  | zero =>
    intro written k b bytes hQ hr hwf hroom hle hfuel
    exact absurd hfuel (Nat.not_lt_zero _)
  | succ fuel ih =>
    intro written k b bytes hQ hr hwf hroom hle hfuel
    obtain ⟨hwpos, hwle, hwend⟩ := hwf.writable hroom
    unfold pipeWrite
    rw [hQ]
    simp only [if_neg (Nat.ne_of_gt hr), if_neg (Nat.ne_of_lt hroom)]
    generalize hm : (if b.writable pageSize < data.length - written then b.writable pageSize
      else data.length - written) = m
    have hmle : m ≤ data.length - written ∧ m ≤ b.writable pageSize
        ∧ (m = data.length - written ∨ m = b.writable pageSize) := by
      split at hm <;> omega
    generalize hb1 : b.push pageSize (fun i => data.getD i 0) written m = b1
    have hlen : b1.length = b.length + m := by
      subst hb1
      rfl
    have hwf1 : b1.Wf pageSize := hb1 ▸ hwf.push (by omega)
    have hcontents : b1.contents pageSize = b.contents pageSize ++ (data.drop written).take m := by
      rw [← hb1, RingBuffer.contents_push hwf (by omega) (by omega), map_getD_eq_take (by omega)]
    rw [if_neg (Nat.not_lt.mpr hwf1.length)]
    by_cases hdone : data.length = written + m
    · -- the last run
      rw [if_pos hdone]
      have hstored : (data.drop written).take (pageSize - b.length) = (data.drop written).take m := by
        rw [List.take_of_length_le (by simp; omega), List.take_of_length_le (by simp; omega)]
      have hlast : data.length = written + ((data.drop written).take m).length := by simp; omega
      refine ⟨b1, 0, ?_, hwf1, by rw [hcontents, hstored]⟩
      simp only [hstored, writeEnd]
      rw [if_pos hlast, ← wakeAll_wake, hdone]
      rfl
    rw [if_neg hdone]
    have hQ' : (k.processWake (.readers q)).2.pipes.get q = some Q := by
      rw [processWake_pipes]
      exact hQ
    by_cases hfull : b1.length = pageSize
    · -- there is no room for the rest
      obtain ⟨fuel, rfl⟩ : ∃ n, fuel = n + 1 := ⟨fuel - 1, by omega⟩
      refine ⟨b1, 0, ?_, hwf1, by rw [hcontents, show m = pageSize - b.length by omega]⟩
      rw [pipeWrite_full fuel _ _ hQ' hr hfull]
      have hmore : ¬ data.length = written + ((data.drop written).take (pageSize - b.length)).length := by
        simp; omega
      have hcount : ((data.drop written).take (pageSize - b.length)).length = m := by simp; omega
      simp only [writeEnd]
      rw [if_neg hmore, hcount, ← wakeAll_wake, show pageSize - b.length = m by omega]
      rfl
    · -- the run ends at the end of the page, and the rest goes on at its start
      obtain ⟨b', n, hrest, hwf', hcontents'⟩ := @ih (written + m) (k.processWake (.readers q)).2 b1
        (bytes ++ (data.drop written).take m) hQ' hr hwf1 (by have := hwf1.length; omega)
        (by omega) (by omega)
      have hsplit : (data.drop written).take (pageSize - b.length)
          = (data.drop written).take m ++ (data.drop (written + m)).take (pageSize - b1.length) := by
        rw [hlen, show pageSize - b.length = m + (pageSize - (b.length + m)) by omega, List.take_add,
          List.drop_drop]
      have hcount : written + ((data.drop written).take (pageSize - b.length)).length
          = written + m + ((data.drop (written + m)).take (pageSize - b1.length)).length := by
        rw [hsplit, List.length_append, List.length_take_of_le (by simp; omega), Nat.add_assoc]
      refine ⟨b', n + 1, ?_, hwf', ?_⟩
      · simp only [writeEnd] at hrest ⊢
        rw [hrest, hcount, wakeAll_wake, hsplit, List.append_assoc]
      · rw [hcontents', hcontents, hsplit, List.append_assoc]

/-! ## Turns -/

/-- The turns of process `p` in a call on a pipe with the buffer `b`. -/
inductive Turned (k : Kernel) (b : PipeBuffer) (p : Nat) : PipeCall → Turn → Prop
  /-- There is nothing to read and no one will write. -/
  | eof {q size read : Nat} {Q : Pipe} : k.pipes.get q = some Q → Q.writers = 0 → b.length = 0 →
      Turned k b p (.read q size read) ⟨k, b, [], .returned 0⟩
  | waitsForData {q size read : Nat} {Q : Pipe} : k.pipes.get q = some Q → 0 < Q.writers →
      b.length = 0 → Turned k b p (.read q size read)
        ⟨k.processSleep p (.readers q) .other, b, [], .asleep (.read q size read)⟩
  | took {q size read n : Nat} {b' : PipeBuffer} : 0 < b.length → b'.Wf pageSize →
      b'.contents pageSize = (b.contents pageSize).drop (size - read) →
      Turned k b p (.read q size read) ⟨wakeAll (.writers q) (n + 1) k, b',
        (b.contents pageSize).take (size - read), .returned ↑(read + min (size - read) b.length)⟩
  /-- No one will read: the caller is sent `SIGPIPE`. -/
  | broken {q written : Nat} {data : List UInt8} {Q : Pipe} {P : Process} :
      k.pipes.get q = some Q → Q.readers = 0 → k.processes.get p = some P →
      Turned k b p (.write q data written) ⟨(k.processKill P.id sigpipe).2, b, [], .returned epipe⟩
  | waitsForRoom {q written : Nat} {data : List UInt8} {Q : Pipe} : k.pipes.get q = some Q →
      0 < Q.readers → b.length = pageSize → Turned k b p (.write q data written)
        ⟨k.processSleep p (.writers q) .other, b, [], .asleep (.write q data written)⟩
  | stored {q written n : Nat} {data : List UInt8} {b' : PipeBuffer} :
      b.length < pageSize → data.length - written ≤ pageSize - b.length → b'.Wf pageSize →
      b'.contents pageSize = b.contents pageSize ++ data.drop written →
      Turned k b p (.write q data written)
        ⟨wakeAll (.readers q) (n + 1) k, b', data.drop written, .returned data.length⟩
  /-- The pipe is filled up, and the rest of the data waits for room. -/
  | filled {q written n : Nat} {data : List UInt8} {Q : Pipe} {b' : PipeBuffer} :
      k.pipes.get q = some Q → 0 < Q.readers → b.length < pageSize →
      pageSize - b.length < data.length - written → b'.Wf pageSize →
      b'.contents pageSize = b.contents pageSize ++ (data.drop written).take (pageSize - b.length) →
      Turned k b p (.write q data written)
        ⟨(wakeAll (.readers q) (n + 1) k).processSleep p (.writers q) .other, b',
          (data.drop written).take (pageSize - b.length),
          .asleep (.write q data (written + (pageSize - b.length)))⟩

/-- **Every turn is one of those**, or runs into a `SYSTEM_BUG_ON`. -/
theorem turn_cases {c : PipeCall} (hc : c.Wf) (hQ : k.pipes.get c.pipe = some Q)
    (hP : k.processes.get p = some P) (hwf : b.Wf pageSize) :
    (c.ReadsNothing b ∧ k.turn b p c = .error .bug)
      ∨ (¬ c.ReadsNothing b ∧ ∃ t, k.turn b p c = .ok t ∧ Turned k b p c t) := by
  cases c with
  | read q size read =>
    subst hc
    have hQ : k.pipes.get q = some Q := hQ
    by_cases hempty : b.length = 0
    · refine .inr ⟨fun h => absurd (hempty.symm.trans h.2) (by decide), ?_⟩
      by_cases hw : Q.writers = 0
      · refine ⟨_, ?_, .eof hQ hw hempty⟩
        rw [turn, pipeRead, hQ]
        simp only [if_pos hempty, if_pos hw]
      · refine ⟨_, ?_, .waitsForData hQ (Nat.pos_of_ne_zero hw) hempty⟩
        rw [turn, pipeRead, hQ]
        simp only [if_pos hempty, if_neg hw]
    · have hpos := Nat.pos_of_ne_zero hempty
      by_cases hbug : size = 0 ∧ b.length = pageSize
      · refine .inl ⟨hbug, ?_⟩
        rw [turn, pipeRead, hQ]
        simp only [if_neg hempty]
        rw [hbug.1, Nat.zero_sub, if_pos (hwf.readable hpos).1]
        exact if_pos (.inr (Nat.le_of_eq hbug.2.symm))
      · obtain ⟨b', n, hturn, hb', hcontents⟩ := pipeRead_took (p := p) [] hQ hwf hpos
          (Nat.zero_le size) (Nat.lt_succ_self _) hbug
        exact .inr ⟨hbug, _, hturn, .took hpos hb' hcontents⟩
  | write q data written =>
    have hQ : k.pipes.get q = some Q := hQ
    refine .inr ⟨id, ?_⟩
    by_cases hr : Q.readers = 0
    · refine ⟨_, ?_, .broken hQ hr hP⟩
      rw [turn, pipeWrite, hQ]
      simp only [if_pos hr]
      rw [hP]
    have hr := Nat.pos_of_ne_zero hr
    by_cases hfull : b.length = pageSize
    · exact ⟨_, pipeWrite_full _ _ _ hQ hr hfull, .waitsForRoom hQ hr hfull⟩
    have hroom := Nat.lt_of_le_of_ne hwf.length hfull
    obtain ⟨b', n, hturn, hb', hcontents⟩ := pipeWrite_stored (p := p) [] hQ hr hwf hroom hc
      (Nat.lt_succ_self (data.length - written))
    refine ⟨_, hturn, ?_⟩
    have hc : written ≤ data.length := hc
    unfold writeEnd
    by_cases hall : data.length - written ≤ pageSize - b.length
    · have htake : (data.drop written).take (pageSize - b.length) = data.drop written :=
        List.take_of_length_le (by simpa using hall)
      rw [htake] at hcontents ⊢
      rw [if_pos (by simp; omega)]
      exact .stored hroom hall hb' hcontents
    · rw [if_neg (by simp; omega), List.length_take_of_le (by simp; omega)]
      exact .filled hQ hr hroom (Nat.lt_of_not_le hall) hb' hcontents

end Kernel

end Cyanurus
