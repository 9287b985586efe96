import Cyanurus.Lib.Run
import Cyanurus.Mem.Buddy

/-!
# The terminal

`src/kernel/tty.c` over `uart.c`. A call moves one character after the other. When the device
has none, or no room for one, the call turns the interrupt for that on and sleeps; it turns the
interrupt off when it goes on, though others may sleep in the same queue. The interrupt handler
and the end of a call wake one sleeper of a queue each.

The device, the interrupts and the processes move in any order. **`tty_wakes`**: when everybody in
a call sleeps, an interrupt that somebody sleeps for is on, so the terminal as a whole is never
stuck. One queue can be: a reader that goes on in its echo turns off the interrupt that a writer
waits for, and then waits for input itself.
-/

namespace Cyanurus

open Lts

/-! ## The device -/

/-- What a call sleeps for. -/
inductive TtySide where
  | recv
  | send
deriving DecidableEq, Repr

/-- The characters that the device has received and those it has to send, and the interrupts that
are on in `UARTIMSC`. It holds `depth` characters each way. -/
structure Uart where
  rx : List UInt8
  tx : List UInt8
  mask : TtySide → Bool

def uartCanSend (depth : Nat) (u : Uart) : Bool := u.tx.length < depth

/-- `uart_send`: without room it waits until the device has sent a character. -/
def uartSend (depth : Nat) (u : Uart) (c : UInt8) : Uart :=
  { u with tx := (if uartCanSend depth u then u.tx else u.tx.tail) ++ [c] }

def uartPutc (depth : Nat) (u : Uart) (c : UInt8) : Uart :=
  uartSend depth (if c = 10 then uartSend depth u 13 else u) c

/-- The character that `uart_getc` returns for one that was received. -/
def uartGetc (c : UInt8) : UInt8 := if c = 13 then 10 else c

/-- `uart_set_interrupt` and `uart_clear_interrupt` -/
def uartInterrupt (u : Uart) (e : TtySide) (on : Bool) : Uart :=
  { u with mask := Function.update u.mask e on }

/-! ## Calls -/

/-- A call that has not returned: `tty_read`, with the character that it echoes while it is in
`tty_putc`, or `tty_write`. -/
inductive TtyCall where
  | read (size : Nat) (buf : List UInt8) (echo : Option UInt8)
  | write (data : List UInt8) (i : Nat)
deriving DecidableEq, Repr

def TtyCall.side : TtyCall → TtySide
  | read _ _ none => .recv
  | _ => .send

/-- `tty_read_waitq` and `tty_write_waitq`, with who went to sleep last in front, the calls, and
the process that executes one; interrupts are not taken meanwhile. -/
structure Tty where
  uart : Uart
  queue : TtySide → List Nat
  calls : Nat → Option TtyCall
  running : Option Nat

inductive TtyAct where
  /-- The device receives a character, or sends one. -/
  | receive (c : UInt8)
  | transmit
  /-- `tty_resume`, from the interrupt handler. -/
  | interrupt
  | call (p : Nat) (c : TtyCall)
  /-- A process that was woken is dispatched. -/
  | resume (p : Nat)
  /-- The call that is executed goes on to its next look at the device. -/
  | go
deriving DecidableEq, Repr

namespace Tty

def start : Tty := ⟨⟨[], [], fun _ => false⟩, fun _ => [], fun _ => none, none⟩

/-- The interrupt is turned on, and `process_sleep` follows. -/
def sleep (s : Tty) (p : Nat) (e : TtySide) : Tty :=
  { s with
    uart := uartInterrupt s.uart e true
    queue := Function.update s.queue e (p :: s.queue e)
    running := none }

/-- `process_wake` -/
def wake (s : Tty) (e : TtySide) : Tty :=
  { s with queue := Function.update s.queue e (s.queue e).tail }

/-- `wake_next`, and the call returns. -/
def done (s : Tty) (p : Nat) : Tty :=
  { (s.wake .recv).wake .send with
    calls := Function.update s.calls p none
    running := none }

/-- `tty_putc(c)`, after which the call is `next`. -/
def putc (depth : Nat) (s : Tty) (p : Nat) (c : UInt8) (next : TtyCall) : Tty :=
  if uartCanSend depth s.uart then
    { s with uart := uartPutc depth s.uart c, calls := Function.update s.calls p (some next) }
  else s.sleep p .send

/-- One round of `tty_getc` or `tty_putc`. The loop of `tty_read` is left at its bound, or after a
newline. -/
def round (depth : Nat) (s : Tty) (p : Nat) : TtyCall → Tty
  | .read size buf none =>
    if size ≤ buf.length ∨ buf.getLast? = some 10 then s.done p
    else
      match s.uart.rx with
      | [] => s.sleep p .recv
      | c :: rx =>
        { s with
          uart := { s.uart with rx }
          calls := Function.update s.calls p (some (.read size buf (some (uartGetc c)))) }
  | .read size buf (some c) => s.putc depth p c (.read size (buf ++ [c]) none)
  | .write data i =>
    match data[i]? with
    | some c => s.putc depth p c (.write data (i + 1))
    | none => s.done p

def ttyResume (depth : Nat) (s : Tty) : Tty :=
  let s := if s.uart.rx = [] then s else s.wake .recv
  if uartCanSend depth s.uart then s.wake .send else s

/-- An action that the state does not allow is an error. -/
def step (depth : Nat) (s : Tty) : TtyAct → Except Halt Tty
  | .receive c =>
    -- a character that finds no room is lost
    if s.uart.rx.length < depth then .ok { s with uart := { s.uart with rx := s.uart.rx ++ [c] } }
    else .ok s
  | .transmit => .ok { s with uart := { s.uart with tx := s.uart.tx.tail } }
  | .interrupt => if s.running = none then .ok (s.ttyResume depth) else .error .unknown
  | .call p c =>
    if s.running = none ∧ s.calls p = none then
      match c with
      | .read _ [] none | .write _ 0 =>
        .ok { s with calls := Function.update s.calls p (some c), running := some p }
      | _ => .error .unknown
    else .error .unknown
  | .resume p =>
    match s.calls p with
    | some c =>
      if s.running = none ∧ p ∉ s.queue c.side then
        .ok { s with uart := uartInterrupt s.uart c.side false, running := some p }
      else .error .unknown
    | none => .error .unknown
  | .go =>
    match s.running with
    | some p =>
      match s.calls p with
      | some c => .ok (s.round depth p c)
      | none => .error .unknown
    | none => .error .unknown

/-! ## Wake-ups -/

variable {s s' : Tty} {p : Nat} {c : TtyCall} {e : TtySide} {depth : Nat}

/-- The process is in a call and does not sleep. -/
def Awake (s : Tty) (p : Nat) : Prop := ∃ c, s.calls p = some c ∧ p ∉ s.queue c.side

structure Inv (s : Tty) : Prop where
  nodup : ∀ e, (s.queue e).Nodup
  sleepers : ∀ {p e}, p ∈ s.queue e → ∃ c, s.calls p = some c ∧ c.side = e
  running : ∀ {p}, s.running = some p → s.Awake p
  armed : ∀ {p c}, s.calls p = some c →
    (∃ r, s.Awake r) ∨ ∃ e, s.queue e ≠ [] ∧ s.uart.mask e = true

theorem Inv.out (h : s.Inv) (ha : s.Awake p) (e : TtySide) : p ∉ s.queue e := by
  obtain ⟨c, hc, hout⟩ := ha
  intro hp
  obtain ⟨c', hc', rfl⟩ := h.sleepers hp
  exact hout (Option.some.inj (hc'.symm.trans hc) ▸ hp)

/-- As long as somebody is awake, the sleepers depend on that process. -/
theorem Inv.of_awake (h : s.Inv) (hq : ∀ e, (s'.queue e).Sublist (s.queue e))
    (hc : ∀ {p e}, p ∈ s'.queue e → s'.calls p = s.calls p)
    (hr : ∀ {p}, s'.running = some p → s'.Awake p)
    (ha : ∀ {p c}, s'.calls p = some c → ∃ r, s'.Awake r) : s'.Inv where
  nodup := fun e => (hq e).nodup (h.nodup e)
  sleepers := fun hp => hc hp ▸ h.sleepers ((hq _).subset hp)
  running := hr
  armed := fun hcall => .inl (ha hcall)

/-- A process that does not sleep executes the call `c`. -/
theorem Inv.execute (h : s.Inv) (hp : ∀ e, p ∉ s.queue e) (c : TtyCall) (u : Uart) :
    Inv { s with uart := u, calls := Function.update s.calls p (some c), running := some p } := by
  have ha : Awake { s with
      uart := u, calls := Function.update s.calls p (some c), running := some p } p :=
    ⟨c, Function.update_self .., hp _⟩
  refine h.of_awake (fun e => .refl _) (fun {r e} hr => Function.update_of_ne ?_ ..) (fun hr => ?_)
    fun _ => ⟨p, ha⟩
  · rintro rfl
    exact hp e hr
  · cases hr
    exact ha

theorem Inv.sleep (h : s.Inv) (hr : s.running = some p) (hc : s.calls p = some c) :
    (s.sleep p c.side).Inv := by
  have hout := h.out (h.running hr)
  have hself : (s.sleep p c.side).queue c.side = p :: s.queue c.side := Function.update_self ..
  have hne : ∀ {e}, e ≠ c.side → (s.sleep p c.side).queue e = s.queue e := fun he =>
    Function.update_of_ne he ..
  refine ⟨fun e => ?_, fun {r e} hr => ?_, fun hr => ?_,
    fun _ => .inr ⟨c.side, hself ▸ List.cons_ne_nil _ _, Function.update_self ..⟩⟩
  · by_cases he : e = c.side
    · rw [he, hself]
      exact List.nodup_cons.mpr ⟨hout _, h.nodup _⟩
    · exact hne he ▸ h.nodup e
  · by_cases he : e = c.side
    · rw [he, hself, List.mem_cons] at hr
      rcases hr with rfl | hr
      · exact ⟨c, hc, he.symm⟩
      · exact h.sleepers (he ▸ hr)
    · exact h.sleepers (hne he ▸ hr)
  · cases hr

/-- The first of a queue is awake when only others are left in it. -/
theorem Inv.woken (h : s.Inv) (hc : ∀ {r e}, r ∈ s.queue e → s'.calls r = s.calls r)
    (he : s.queue e ≠ []) (htail : (s'.queue e).Sublist (s.queue e).tail) : ∃ r, s'.Awake r := by
  obtain ⟨r, rest, hl⟩ := List.exists_cons_of_ne_nil he
  have hr : r ∈ s.queue e := hl ▸ List.mem_cons_self ..
  obtain ⟨c, hcall, rfl⟩ := h.sleepers hr
  refine ⟨r, c, (hc hr).trans hcall, fun hmem => ?_⟩
  rw [hl] at htail
  exact (List.nodup_cons.mp (hl ▸ h.nodup _)).1 (htail.subset hmem)

theorem Inv.wake (h : s.Inv) (e : TtySide) : (s.wake e).Inv := by
  by_cases he : s.queue e = []
  · -- nobody is woken
    have hsame : s.wake e = s := by
      unfold Tty.wake
      rw [Function.update_eq_self_iff.mpr (by rw [he]; rfl)]
    rwa [hsame]
  have hq : ∀ e', ((s.wake e).queue e').Sublist (s.queue e') := fun e' => by
    by_cases he' : e' = e
    · subst he'
      simpa [Tty.wake] using List.tail_sublist _
    · simp [Tty.wake, he']
  have htail : (s.wake e).queue e = (s.queue e).tail := Function.update_self ..
  refine h.of_awake hq (fun _ => rfl) (fun hp => ?_) fun _ =>
    h.woken (fun _ => rfl) he (htail ▸ .refl _)
  obtain ⟨c, hc, hout⟩ := h.running hp
  exact ⟨c, hc, fun hmem => hout ((hq _).subset hmem)⟩

theorem Inv.done (h : s.Inv) (hr : s.running = some p) : (s.done p).Inv := by
  have hout := h.out (h.running hr)
  have hq : ∀ e, ((s.done p).queue e).Sublist (s.queue e).tail := fun e => by cases e <;> exact .refl _
  have hq' := fun e => (hq e).trans (List.tail_sublist _)
  have hne : ∀ {r e}, r ∈ s.queue e → (s.done p).calls r = s.calls r := by
    intro r e hmem
    refine Function.update_of_ne ?_ ..
    rintro rfl
    exact hout e hmem
  refine h.of_awake hq' (fun hmem => hne ((hq' _).subset hmem)) (fun hr => by cases hr) fun {r c} hc => ?_
  -- if nobody slept, who is still in a call is awake
  by_cases hall : ∀ e, s.queue e = []
  · exact ⟨r, c, hc, fun hmem => by simpa [hall] using (hq _).subset hmem⟩
  · obtain ⟨e, he⟩ := not_forall.mp hall
    exact h.woken hne he (hq e)

theorem Inv.putc (h : s.Inv) (hr : s.running = some p) (hc : s.calls p = some c)
    (hside : c.side = .send) (ch : UInt8) (next : TtyCall) : (s.putc depth p ch next).Inv := by
  unfold Tty.putc
  split
  · exact hr ▸ h.execute (h.out (h.running hr)) next _
  · exact hside ▸ h.sleep hr hc

theorem Inv.round (h : s.Inv) (hr : s.running = some p) (hc : s.calls p = some c) :
    (s.round depth p c).Inv := by
  unfold Tty.round
  split
  · split
    · exact h.done hr
    · split
      · exact h.sleep hr hc
      · exact hr ▸ h.execute (h.out (h.running hr)) _ _
  · exact h.putc hr hc rfl _ _
  · split
    · exact h.putc hr hc rfl _ _
    · exact h.done hr

theorem Inv.step {a : TtyAct} (h : s.Inv) (hs : s.step depth a = .ok s') : s'.Inv := by
  cases a with
  | receive c =>
    simp only [Tty.step] at hs
    split at hs <;> cases hs
    · exact ⟨h.nodup, h.sleepers, h.running, h.armed⟩
    · exact h
  | transmit =>
    cases hs
    exact ⟨h.nodup, h.sleepers, h.running, h.armed⟩
  | interrupt =>
    simp only [Tty.step] at hs
    split at hs <;> cases hs
    have h1 : (if s.uart.rx = [] then s else s.wake .recv).Inv := by
      split
      · exact h
      · exact h.wake .recv
    unfold ttyResume
    generalize (if s.uart.rx = [] then s else s.wake .recv) = s₁ at h1 ⊢
    simp only
    split
    · exact h1.wake .send
    · exact h1
  | call p c =>
    simp only [Tty.step] at hs
    split at hs
    · rename_i hcond
      have hp : ∀ e, p ∉ s.queue e := fun e hp => by
        obtain ⟨c, hc, _⟩ := h.sleepers hp
        exact absurd (hcond.2.symm.trans hc) (by simp)
      split at hs <;> cases hs <;> exact h.execute hp _ _
    · cases hs
  | resume p =>
    simp only [Tty.step] at hs
    split at hs
    · rename_i c hc
      split at hs <;> cases hs
      rename_i hcond
      have hp := h.out ⟨c, hc, hcond.2⟩
      have h' := h.execute hp c (uartInterrupt s.uart c.side false)
      rwa [Function.update_eq_self_iff.mpr hc.symm] at h'
    · cases hs
  | go =>
    simp only [Tty.step] at hs
    split at hs
    · rename_i p hr
      split at hs <;> cases hs
      exact h.round hr ‹_›
    · cases hs

theorem start_inv : start.Inv :=
  ⟨fun _ => List.nodup_nil, fun hp => absurd hp (by simp [start]), fun hr => absurd hr (by simp [start]),
    fun hc => absurd hc (by simp [start])⟩

end Tty

/-- **The terminal is never stuck.** Whenever everybody who is in a call sleeps, an interrupt that
somebody sleeps for is on. -/
theorem tty_wakes {depth p : Nat} {c : TtyCall} {as : List TtyAct} {s : Tty}
    (hr : Run (fun s a s' => Tty.step depth s a = .ok s') .start as s) (hc : s.calls p = some c)
    (hall : ∀ p c, s.calls p = some c → p ∈ s.queue c.side) :
    ∃ e, s.queue e ≠ [] ∧ s.uart.mask e = true := by
  have h : s.Inv := hr.invariant Tty.start_inv fun _ _ _ h hs => h.step hs
  refine (h.armed hc).resolve_left ?_
  rintro ⟨r, c, hc, hout⟩
  exact hout (hall r c hc)

theorem tty_wakes_reader : ∃ s, Run (fun s a s' => Tty.step 1 s a = .ok s') .start
    [.call 0 (.read 1 [] none), .go] s ∧ s.calls 0 = some (.read 1 [] none)
    ∧ ∃ e, s.queue e ≠ [] ∧ s.uart.mask e = true := by
  have hr : Run (fun s a s' => Tty.step 1 s a = .ok s') .start
      ([] ++ [.call 0 (.read 1 [] none)] ++ [.go]) _ := (Run.nil.snoc rfl).snoc rfl
  refine ⟨_, hr, rfl, tty_wakes (p := 0) hr rfl fun p c hc => ?_⟩
  by_cases hp : p = 0
  · subst hp
    cases hc
    exact List.mem_cons_self ..
  · cases (Function.update_of_ne hp _ _).symm.trans hc

/-- A reader goes on in its echo and looks for input again. The writer that came in between sleeps
on, though there is room, with the interrupt for that off. -/
example : (List.foldlM (Tty.step 1) .start [.receive 97, .call 0 (.write [120] 0), .go, .go,
    .call 1 (.read 2 [] none), .go, .go, .transmit, .interrupt, .call 2 (.write [121, 122] 0), .go,
    .go, .transmit, .resume 1, .go, .go, .transmit]).toOption.map
      (fun s => (s.queue .recv, s.queue .send, s.uart.mask .send, s.uart.tx))
    = some ([1], [2], false, []) := by decide

end Cyanurus
