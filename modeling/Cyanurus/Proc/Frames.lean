import Cyanurus.Proc.SignalRun

/-!
# The frames of signal handlers

`process_dispatch` saves the context and the mask of a process on the user stack before it
enters a handler, and `process_sigreturn` loads them from there. Neither looks at the stack
pointer, which may be anything that a program puts into the register.

**`signal_frames_in_user`** gives the stack pointers for which a frame is in the user range;
`signal_frame_strays` is a delivery with another one.

Where a frame lies does not matter to the return: what is pushed with its address rounded
down is popped with its address rounded up. `Nest` follows one thread through deliveries and
returns that nest to any depth, with a record of what each delivery found.
**`handlers_return`** says that a return restores what is on record for the innermost
delivery.
-/

namespace Cyanurus

open Lts

/-! ## The words of a frame -/

section Words

variable {m m' : Bytes} {a : Nat}

theorem storeWords_agree : ∀ (ws : List Nat) (m : Bytes) (a : Nat) {b n : Nat},
    Bytes.Apart a (4 * ws.length) b n → m.Agree (storeWords m a ws) b n
  | [], m, _, b, n, _ => Bytes.Agree.refl m b n
  | w :: ws, m, a, b, n, h => by
    have hfirst : Bytes.Apart a 4 b n := by
      simp only [Bytes.Apart, List.length_cons] at h ⊢
      omega
    have hrest : Bytes.Apart (a + 4) (4 * ws.length) b n := by
      simp only [Bytes.Apart, List.length_cons] at h ⊢
      omega
    exact (Bytes.store_agree m w hfirst).trans (storeWords_agree ws (m.store 4 a w) (a + 4) hrest)

/-- A word that was stored is loaded again. -/
theorem load_storeWords : ∀ (ws : List Nat) (m : Bytes) (a i : Nat) {w : Nat},
    ws[i]? = some w → w < 2 ^ 32 → (storeWords m a ws).load 4 (a + 4 * i) = w
  | [], _, _, _, _, hi, _ => absurd hi (by simp)
  | v :: ws, m, a, 0, w, hi, hw => by
    have hv : v = w := by simpa using hi
    have hkeep : (m.store 4 a v).Agree (storeWords (m.store 4 a v) (a + 4) ws) a 4 :=
      storeWords_agree ws _ _ (.inr (Nat.le_refl _))
    show (storeWords (m.store 4 a v) (a + 4) ws).load 4 a = w
    rw [Bytes.load_congr hkeep, Bytes.load_store_self, hv]
    exact Nat.mod_eq_of_lt hw
  | v :: ws, m, a, i + 1, w, hi, hw => by
    rw [show a + 4 * (i + 1) = a + 4 + 4 * i by omega]
    exact load_storeWords ws (m.store 4 a v) (a + 4) i hi hw

/-- Every register of the context has 32 bits. -/
def ProcessContext.Fits (c : ProcessContext) : Prop := ∀ w ∈ c.words, w < 2 ^ 32

instance (c : ProcessContext) : Decidable c.Fits := inferInstanceAs (Decidable (∀ w ∈ _, _))

theorem ProcessContext.words_length (c : ProcessContext) : c.words.length = 17 := by
  simp [ProcessContext.words]

theorem ProcessContext.Fits.sp {c : ProcessContext} (h : c.Fits) : c.sp < 2 ^ 32 :=
  h c.sp (by simp [ProcessContext.words])

/-- The words of a context by their places. -/
theorem ProcessContext.words_register (c : ProcessContext) (i : Fin 13) :
    c.words[1 + i.val]? = some c.r[i] := by
  have hlt : i.val < c.r.toList.length := by simp
  unfold ProcessContext.words
  rw [List.cons_append, show 1 + i.val = i.val + 1 by omega, List.getElem?_cons_succ,
    List.getElem?_append_left hlt]
  simp

theorem ProcessContext.words_last (c : ProcessContext) {i : Nat} (hi : 14 ≤ i) :
    c.words[i]? = [c.sp, c.lr, c.pc][i - 14]? := by
  have hlen : c.r.toList.length = 13 := by simp
  unfold ProcessContext.words
  rw [List.cons_append, show i = (i - 1) + 1 by omega, List.getElem?_cons_succ,
    List.getElem?_append_right (by omega), hlen]
  rfl

/-- A context is loaded as it was stored. -/
theorem loadContext_storeWords (m : Bytes) (a : Nat) {c : ProcessContext} (hc : c.Fits) :
    loadContext (storeWords m a c.words) a = c := by
  have hload : ∀ {i w : Nat}, c.words[i]? = some w →
      (storeWords m a c.words).load 4 (a + 4 * i) = w := fun h =>
    load_storeWords c.words m a _ h (hc _ (List.mem_of_getElem? h))
  have hcpsr := hload (i := 0) (w := c.cpsr) rfl
  have hsp := hload (i := 14) (w := c.sp) (c.words_last (by omega))
  have hlr := hload (i := 15) (w := c.lr) (c.words_last (by omega))
  have hpc := hload (i := 16) (w := c.pc) (c.words_last (by omega))
  have hr : (Vector.ofFn fun i : Fin 13 => (storeWords m a c.words).load 4 (a + 4 + 4 * i)) = c.r := by
    ext i hi
    have h := hload (c.words_register ⟨i, hi⟩)
    rw [show a + 4 * (1 + i) = a + 4 + 4 * i by omega] at h
    simpa using h
  unfold loadContext
  rw [hr, hsp, hlr, hpc]
  cases c
  simpa using hcpsr

/-- A mask is loaded as it was stored. -/
theorem loadMask_storeWords (m : Bytes) (a : Nat) (mask : Sigset) :
    BitVec.ofNat 64 ((storeWords m a mask.words).load 8 a) = mask := by
  have hlow : (storeWords m a mask.words).load 4 a = mask.toNat % 2 ^ 32 :=
    load_storeWords mask.words m a 0 rfl (Nat.mod_lt _ (by decide))
  have hhigh : (storeWords m a mask.words).load 4 (a + 4) = mask.toNat / 2 ^ 32 :=
    load_storeWords mask.words m a 1 rfl (by have := mask.isLt; omega)
  have hpair := Bytes.load_add (storeWords m a mask.words) 4 4 a
  rw [hlow, hhigh, show 256 ^ 4 = 2 ^ 32 by decide, Nat.mod_add_div] at hpair
  rw [hpair, BitVec.ofNat_toNat, BitVec.setWidth_eq]

theorem loadContext_congr (h : m.Agree m' a 68) : loadContext m' a = loadContext m a := by
  have hload : ∀ i, i ≤ 64 → m'.load 4 (a + i) = m.load 4 (a + i) := fun i hi =>
    Bytes.load_congr (h.sub (by omega) (by omega))
  unfold loadContext
  congr 1
  · exact hload 0 (by omega)
  · congr 1
    funext i
    rw [Nat.add_assoc]
    exact hload _ (by omega)
  · exact hload 56 (by omega)
  · exact hload 60 (by omega)
  · exact hload 64 (by omega)

end Words

/-! ## Where a frame lies -/

section Place

variable {sp : Nat}

/-- `push_to_stack` does not wrap if there is room. -/
theorem pushAddress_eq {size : Nat} (h : size ≤ sp) (hsp : sp < 2 ^ 32) :
    pushAddress sp size = (sp - size) / 8 * 8 := by
  unfold pushAddress
  rw [show sp + 2 ^ 32 - size = sp - size + 2 ^ 32 by omega, Nat.add_mod_right,
    Nat.mod_eq_of_lt (by omega)]

/-- The stack pointer that a handler starts with. -/
def handlerSp (sp : Nat) : Nat := pushAddress (pushAddress sp contextSize) 8

/-- Both parts of a frame, pushed one after the other, are adjacent. -/
theorem handlerSp_eq (h : 76 ≤ sp) (hsp : sp < 2 ^ 32) :
    pushAddress sp 68 = handlerSp sp + 8 ∧ handlerSp sp = (sp - 76) / 8 * 8 := by
  have houter : pushAddress sp 68 = (sp - 68) / 8 * 8 := pushAddress_eq (by omega) hsp
  have hinner : handlerSp sp = (pushAddress sp 68 - 8) / 8 * 8 := by
    unfold handlerSp contextSize
    exact pushAddress_eq (by omega) (by omega)
  omega

/-- What is popped was pushed there. -/
theorem popAddress_handlerSp (h : 76 ≤ sp) (hsp : sp < 2 ^ 32) :
    popAddress (handlerSp sp) 8 = handlerSp sp + 8 := by
  have := (handlerSp_eq h hsp).2
  unfold popAddress
  omega

/-- The stack pointers with room for a frame in the user range. -/
theorem frameInUser_iff (hsp : sp < 2 ^ 32) :
    Kernel.FrameInUser sp ↔ userAddressStart + 76 ≤ sp ∧ sp < userAddressEnd + 4 := by
  unfold Kernel.FrameInUser InUser pushAddress userAddressStart userAddressEnd
  omega

/-- `process_sigreturn` reads the mask and then the context in the user range. -/
def ReturnInUser (sp : Nat) : Prop := InUser (sp, 8) ∧ InUser (popAddress sp 8, contextSize)

theorem returnInUser_iff (hsp : sp < 2 ^ 32) :
    ReturnInUser sp ↔ userAddressStart ≤ sp ∧ sp + 80 ≤ userAddressEnd := by
  unfold ReturnInUser InUser popAddress contextSize userAddressEnd
  omega

end Place

/-! ## One delivery and one return -/

/-- What a frame saves of a process, with the user memory that it is saved in. -/
structure Thread where
  context : ProcessContext
  mask : Sigset
  mem : Bytes

namespace Thread

/-- The frame on the stack, at whatever addresses the stack pointer leads to. -/
def storeFrame (t : Thread) : Bytes :=
  storeWords (storeWords t.mem (pushAddress t.context.sp contextSize) t.context.words)
    (handlerSp t.context.sp) t.mask.words

/-- A delivery stores nothing but the frame. -/
theorem storeFrame_keep (t : Thread) {a n : Nat}
    (hcontext : Bytes.Apart (pushAddress t.context.sp contextSize) contextSize a n)
    (hmask : Bytes.Apart (handlerSp t.context.sp) 8 a n) : t.mem.Agree t.storeFrame a n := by
  have hlen : 4 * t.context.words.length = contextSize := by
    rw [t.context.words_length]
    decide
  have hsize : 4 * t.mask.words.length = 8 := rfl
  refine (storeWords_agree _ _ _ ?_).trans (storeWords_agree _ _ _ ?_)
  · rw [hlen]
    exact hcontext
  · exact hmask

/-- `process_dispatch` enters a handler. -/
def deliver (t : Thread) (ksa : KSigaction) (sig : Nat) : Thread where
  context := { ProcessContext.zero with
    r := ProcessContext.zero.r.set 0 sig Kernel.registers_pos
    cpsr := 0x10
    sp := handlerSp t.context.sp
    lr := ksa.restorer
    pc := ksa.handler }
  mask := sigaddset (t.mask ||| ksa.mask) sig
  mem := t.storeFrame

/-- `process_sigreturn` -/
def sigreturn (t : Thread) : Thread where
  context := loadContext t.mem (popAddress t.context.sp 8)
  mask := BitVec.ofNat 64 (t.mem.load 8 t.context.sp)
  mem := t.mem

end Thread

/-- The part of a process that a frame saves. -/
def Process.thread (P : Process) (m : Bytes) : Thread := ⟨P.context, P.signal.mask, m⟩

namespace Kernel

variable {k : Kernel} {p : Nat} {P : Process} {m m' : Bytes} {beyond : KSigaction}

theorem pushFrame_of_inUser (h : FrameInUser P.context.sp) :
    pushFrame m P.context P.signal.mask = some (handlerSp P.context.sp, (P.thread m).storeFrame) := by
  have hlen : 4 * P.context.words.length = 68 := by rw [P.context.words_length]
  have houter : pushToStack m P.context.sp P.context.words = some (pushAddress P.context.sp 68,
      storeWords m (pushAddress P.context.sp 68) P.context.words) := by
    unfold pushToStack
    rw [hlen]
    exact if_pos h.1
  rw [pushFrame_eq _ houter]
  exact if_pos h.2

/-- A handler that is entered with a frame in the user range. -/
theorem processDispatch_delivers (hp : k.processes.get p = some P) (hs : P.suspend = none)
    (hh : HasHandler P beyond) (hframe : FrameInUser P.context.sp) :
    ∃ k' P', k.processDispatch p m beyond = .ok (.user P'.context, k', (P.thread m).storeFrame)
      ∧ k'.processes.get p = some P'
      ∧ P'.thread (P.thread m).storeFrame
        = (P.thread m).deliver (action P beyond (nextSignal P)) (nextSignal P) := by
  refine ⟨k.update p fun Q => clearPending (enterHandler Q (action P beyond (nextSignal P))
      (nextSignal P) (handlerSp P.context.sp)) (nextSignal P),
    clearPending (enterHandler P (action P beyond (nextSignal P)) (nextSignal P)
      (handlerSp P.context.sp)) (nextSignal P), ?_, Store.modify_self_of hp rfl, rfl⟩
  obtain ⟨h0, hd, hi⟩ := hh
  unfold processDispatch
  rw [hp]
  simp only [hs, if_neg h0, if_neg hd, if_neg hi, pushFrame_of_inUser hframe]
  rfl

/-- A return is that of its thread. -/
theorem processSigreturn_returns (hp : k.processes.get p = some P) (m : Bytes) :
    ∃ P', (k.processSigreturn p m).processes.get p = some P'
      ∧ P'.thread m = (P.thread m).sigreturn :=
  ⟨_, Store.modify_self_of hp rfl, rfl⟩

/-- A return depends on nothing but the frame. -/
theorem processSigreturn_congr (hp : k.processes.get p = some P) (hmask : m.Agree m' P.context.sp 8)
    (hcontext : m.Agree m' (popAddress P.context.sp 8) contextSize) :
    k.processSigreturn p m' = k.processSigreturn p m := by
  unfold processSigreturn update
  congr 1
  refine Store.modify_congr fun Q hQ => ?_
  rw [hp] at hQ
  cases hQ
  rw [Bytes.load_congr hmask, loadContext_congr hcontext]

end Kernel

/-- **Where signal frames lie.** The frame that a delivery stores is in the user range
exactly if the stack pointer is at least 76 bytes above its start and less than 4 above its
end; the frame that a return reads is there exactly if there are 80 bytes from the stack
pointer to the end. -/
theorem signal_frames_in_user {k : Kernel} {p : Nat} {P : Process} (m : Bytes)
    (hp : k.processes.get p = some P) (hsp : P.context.sp < 2 ^ 32) :
    (∀ beyond, P.suspend = none → Kernel.HasHandler P beyond →
      (Kernel.FrameInUser P.context.sp
        ↔ userAddressStart + 76 ≤ P.context.sp ∧ P.context.sp < userAddressEnd + 4)
      ∧ (Kernel.FrameInUser P.context.sp → ∃ c k' m', c.sp = handlerSp P.context.sp
        ∧ k.processDispatch p m beyond = .ok (.user c, k', m')
        ∧ ∀ a n, Bytes.Apart (pushAddress P.context.sp contextSize) contextSize a n →
          Bytes.Apart (handlerSp P.context.sp) 8 a n → m.Agree m' a n))
    ∧ (ReturnInUser P.context.sp
      ↔ userAddressStart ≤ P.context.sp ∧ P.context.sp + 80 ≤ userAddressEnd)
    ∧ ∀ m', m.Agree m' P.context.sp 8 → m.Agree m' (popAddress P.context.sp 8) contextSize →
      k.processSigreturn p m' = k.processSigreturn p m := by
  refine ⟨fun beyond hs hh => ⟨frameInUser_iff hsp, fun hframe => ?_⟩, returnInUser_iff hsp,
    fun m' hmask hcontext => Kernel.processSigreturn_congr hp hmask hcontext⟩
  obtain ⟨k', P', hd, hP', ht⟩ := Kernel.processDispatch_delivers hp hs hh hframe (m := m)
  refine ⟨P'.context, k', (P.thread m).storeFrame, ?_, hd, fun a n h1 h2 => ?_⟩
  · exact congrArg (fun t => t.context.sp) ht
  · exact Thread.storeFrame_keep (P.thread m) h1 h2

/-- A process catches signal 10, and is sent it. -/
def catches (sp : Nat) : List SigAct :=
  [.create sp 0, .sigaction 0 10 (some ⟨0x20000, 0, 0, 0⟩), .kill 1 10]

/-- The process has the signal pending, and this stack pointer. -/
theorem catches_pending (sp : Nat) (h : sp = 0x50000000 ∨ sp = 0) : ∃ (k : Kernel) (P : Process),
    k.processes.get 0 = some P ∧ P.context.sp = sp ∧ P.suspend = none
      ∧ Kernel.HasHandler P zeroAction := by
  have hprobe : ((catches sp).foldlM Kernel.sigDone Kernel.empty).toOption.map (fun k =>
      (k.processes.get 0).map fun P => decide (P.context.sp = sp ∧ P.suspend = none
        ∧ Kernel.HasHandler P zeroAction)) = some (some true) := by
    rcases h with rfl | rfl
    · decide
    · decide
  obtain ⟨k, _, hk⟩ := Run.of_probe Kernel.sigDone .empty (catches sp) _ hprobe
  obtain ⟨P, hP, hdec⟩ := Option.map_eq_some_iff.mp hk
  exact ⟨k, P, hP, of_decide_eq_true hdec⟩

theorem signal_frames_in_user_high : ∃ (k : Kernel) (P : Process), k.processes.get 0 = some P
    ∧ P.context.sp < 2 ^ 32 ∧ P.suspend = none ∧ Kernel.HasHandler P zeroAction
    ∧ Kernel.FrameInUser P.context.sp ∧ ReturnInUser P.context.sp := by
  obtain ⟨k, P, hP, hsp, hs, hh⟩ := catches_pending 0x50000000 (.inl rfl)
  have hlt : P.context.sp < 2 ^ 32 := by omega
  obtain ⟨hdeliver, hreturn, _⟩ := signal_frames_in_user (fun _ => 0) hP hlt
  refine ⟨k, P, hP, hlt, hs, hh, (hdeliver zeroAction hs hh).1.mpr ?_, hreturn.mpr ?_⟩
  · rw [hsp]
    decide
  · rw [hsp]
    decide

/-- A process whose stack pointer is 0 gets its frame from the other end of memory. -/
theorem signal_frame_strays : ¬ ∀ (k : Kernel) (p : Nat) (P : Process) (beyond : KSigaction),
    k.processes.get p = some P → P.context.sp < 2 ^ 32 → P.suspend = none →
    Kernel.HasHandler P beyond → Kernel.FrameInUser P.context.sp ∧ ReturnInUser P.context.sp := by
  intro h
  obtain ⟨k, P, hP, hsp, hs, hh⟩ := catches_pending 0 (.inr rfl)
  have hin := (h k 0 P zeroAction hP (by omega) hs hh).1
  rw [hsp] at hin
  exact absurd hin (by decide)

/-! ## Deliveries and returns that nest -/

/-- What a delivery found, and the stack pointer that its handler was entered with. -/
structure SignalFrame where
  context : ProcessContext
  mask : Sigset
  sp : Nat

/-- A thread with the deliveries that it has not returned from, the innermost one first. -/
structure Nest where
  thread : Thread
  frames : List SignalFrame

inductive NestAct where
  /-- User code runs, and any calls that it makes. -/
  | run (thread : Thread)
  | deliver (ksa : KSigaction) (sig : Nat)
  | sigreturn

/-- A handler uses the stack below the pointer it was entered with and leaves memory from
there on as it is. Outside of all handlers anything may be written. -/
def HandlerKeeps (frames : List SignalFrame) (t t' : Thread) : Prop :=
  ∀ f ∈ frames.head?, t'.context.sp ≤ f.sp ∧ ∀ x, f.sp ≤ x → t'.mem x = t.mem x

inductive NestStep : Nest → NestAct → Nest → Prop
  | run {t t' : Thread} {frames : List SignalFrame} : t'.context.Fits → HandlerKeeps frames t t' →
      NestStep ⟨t, frames⟩ (.run t') ⟨t', frames⟩
  | deliver {t : Thread} {frames : List SignalFrame} {ksa : KSigaction} {sig : Nat} :
      76 ≤ t.context.sp → sig < 2 ^ 32 → ksa.handler < 2 ^ 32 → ksa.restorer < 2 ^ 32 →
      NestStep ⟨t, frames⟩ (.deliver ksa sig)
        ⟨t.deliver ksa sig, ⟨t.context, t.mask, handlerSp t.context.sp⟩ :: frames⟩
  | sigreturn {t : Thread} {f : SignalFrame} {frames : List SignalFrame} : t.context.sp = f.sp →
      NestStep ⟨t, f :: frames⟩ .sigreturn ⟨t.sigreturn, frames⟩

/-- The frame of a delivery, as a return will find it. -/
structure SignalFrame.Intact (f : SignalFrame) (m : Bytes) : Prop where
  mask : BitVec.ofNat 64 (m.load 8 f.sp) = f.mask
  context : loadContext m (f.sp + 8) = f.context
  /-- The mask is popped without rounding. -/
  place : popAddress f.sp 8 = f.sp + 8
  below : f.sp + 76 ≤ f.context.sp
  fits : f.context.Fits

theorem SignalFrame.Intact.keep {f : SignalFrame} {m m' : Bytes} (h : f.Intact m)
    (hm : m.Agree m' f.sp 76) : f.Intact m' where
  mask := by
    rw [Bytes.load_congr (hm.sub (Nat.le_refl _) (by omega))]
    exact h.mask
  context := by
    rw [loadContext_congr (hm.sub (by omega) (by omega))]
    exact h.context
  place := h.place
  below := h.below
  fits := h.fits

namespace Thread

variable {t : Thread}

theorem storeFrame_agree (h : 76 ≤ t.context.sp) (hsp : t.context.sp < 2 ^ 32) {a n : Nat}
    (hap : Bytes.Apart (handlerSp t.context.sp) 76 a n) : t.mem.Agree t.storeFrame a n := by
  obtain ⟨houter, _⟩ := handlerSp_eq h hsp
  unfold Bytes.Apart at hap
  apply storeFrame_keep
  · unfold Bytes.Apart contextSize
    omega
  · unfold Bytes.Apart
    omega

/-- The frame that a delivery leaves. -/
theorem storeFrame_intact (h : 76 ≤ t.context.sp) (hfits : t.context.Fits) :
    SignalFrame.Intact ⟨t.context, t.mask, handlerSp t.context.sp⟩ t.storeFrame := by
  obtain ⟨houter, hinner⟩ := handlerSp_eq h hfits.sp
  refine ⟨loadMask_storeWords _ _ _, ?_, popAddress_handlerSp h hfits.sp, ?_, hfits⟩
  · -- the mask is stored below the context
    have hkeep := storeWords_agree t.mask.words
      (storeWords t.mem (pushAddress t.context.sp contextSize) t.context.words)
      (handlerSp t.context.sp) (b := handlerSp t.context.sp + 8) (n := 68) (.inl (Nat.le_refl _))
    refine (loadContext_congr hkeep).trans ?_
    rw [← houter]
    exact loadContext_storeWords _ _ hfits
  · show handlerSp t.context.sp + 76 ≤ t.context.sp
    omega

theorem deliver_fits {ksa : KSigaction} {sig : Nat} (h : 76 ≤ t.context.sp) (hsp : t.context.sp < 2 ^ 32)
    (hsig : sig < 2 ^ 32) (hhandler : ksa.handler < 2 ^ 32) (hrestorer : ksa.restorer < 2 ^ 32) :
    (t.deliver ksa sig).context.Fits := by
  have hplace : handlerSp t.context.sp < 2 ^ 32 := by
    have := (handlerSp_eq h hsp).2
    omega
  have hwords : (t.deliver ksa sig).context.words
      = [0x10, sig] ++ List.replicate 12 0 ++ [handlerSp t.context.sp, ksa.restorer, ksa.handler] := rfl
  intro w hw
  rw [hwords] at hw
  simp only [List.mem_append, List.mem_cons, List.not_mem_nil, or_false, List.mem_replicate] at hw
  omega

end Thread

/-- The frames are on the stack, the inner ones below the outer ones. -/
structure Nest.Inv (s : Nest) : Prop where
  fits : s.thread.context.Fits
  sp : ∀ f ∈ s.frames.head?, s.thread.context.sp ≤ f.sp
  intact : ∀ f ∈ s.frames, f.Intact s.thread.mem
  order : s.frames.Pairwise fun f g => f.context.sp ≤ g.sp

/-- No frame lies below the innermost one. -/
theorem Nest.Inv.head_le {t : Thread} {f g : SignalFrame} {frames : List SignalFrame}
    (hi : Nest.Inv ⟨t, f :: frames⟩) (hg : g ∈ f :: frames) : f.sp ≤ g.sp := by
  rcases List.mem_cons.mp hg with rfl | hg
  · exact Nat.le_refl _
  · have := (List.pairwise_cons.mp hi.order).1 g hg
    have := (hi.intact f (by simp)).below
    omega

theorem nestStep_inv {s s' : Nest} {a : NestAct} (hi : s.Inv) (h : NestStep s a s') : s'.Inv := by
  cases h with
  | @run t t' frames hfits hkeeps =>
    refine ⟨hfits, fun f hf => (hkeeps f hf).1, fun g hg => ?_, hi.order⟩
    cases frames with
    | nil => exact absurd hg (by simp)
    | cons f frames =>
      have hle := hi.head_le hg
      exact (hi.intact g hg).keep fun x hx _ => (hkeeps f rfl).2 x (by omega)
  | @deliver t frames ksa sig hroom hsig hhandler hrestorer =>
    have hsp : t.context.sp < 2 ^ 32 := hi.fits.sp
    have hnew := Thread.storeFrame_intact hroom hi.fits
    -- every older frame is at or above the stack pointer
    have habove : ∀ g ∈ frames, t.context.sp ≤ g.sp := by
      intro g hg
      cases frames with
      | nil => exact absurd hg (by simp)
      | cons f frames =>
        have hle := hi.head_le hg
        have := hi.sp f rfl
        simp only at this
        omega
    refine ⟨Thread.deliver_fits hroom hsp hsig hhandler hrestorer, ?_, ?_, ?_⟩
    · intro f hf
      cases hf
      exact Nat.le_refl _
    · intro g hg
      rcases List.mem_cons.mp hg with rfl | hg
      · exact hnew
      · have hbelow := hnew.below
        have hle := habove g hg
        refine (hi.intact g hg).keep (Thread.storeFrame_agree hroom hsp (.inl ?_))
        exact Nat.le_trans hbelow hle
    · exact List.pairwise_cons.mpr ⟨habove, hi.order⟩
  | @sigreturn t f frames hsp =>
    have hf := hi.intact f (by simp)
    have hcontext : t.sigreturn.context = f.context := by
      unfold Thread.sigreturn
      rw [hsp, hf.place]
      exact hf.context
    obtain ⟨hnext, horder⟩ := List.pairwise_cons.mp hi.order
    refine ⟨?_, fun g hg => ?_, fun g hg => hi.intact g (List.mem_cons_of_mem f hg), horder⟩
    · rw [hcontext]
      exact hf.fits
    · rw [hcontext]
      exact hnext g (List.mem_of_mem_head? hg)

/-- **Handlers return to where they came from.** However deep deliveries nest, a return with
the stack pointer that the innermost handler was entered with restores the context and the
mask that its delivery found, and no two frames overlap. -/
theorem handlers_return {t : Thread} {as : List NestAct} {s : Nest} (ht : t.context.Fits)
    (hr : Run NestStep ⟨t, []⟩ as s) :
    (∀ f ∈ s.frames.head?, s.thread.context.sp = f.sp →
      s.thread.sigreturn.context = f.context ∧ s.thread.sigreturn.mask = f.mask)
    ∧ s.frames.Pairwise fun f g => Bytes.Apart f.sp 76 g.sp 76 := by
  have hempty : Nest.Inv ⟨t, []⟩ := ⟨ht, by simp, by simp, List.Pairwise.nil⟩
  have hi : s.Inv := hr.invariant (I := Nest.Inv) hempty fun _ _ _ hi h => nestStep_inv hi h
  refine ⟨fun f hf hsp => ?_, ?_⟩
  · have hintact := hi.intact f (List.mem_of_mem_head? hf)
    unfold Thread.sigreturn
    rw [hsp, hintact.place]
    exact ⟨hintact.context, hintact.mask⟩
  · refine hi.order.imp_of_mem fun {f g} hf _ hle => .inl ?_
    exact Nat.le_trans (hi.intact f hf).below hle

/-- A thread with nothing but a stack pointer. -/
def threadAt (sp : Nat) : Thread := ⟨{ ProcessContext.zero with sp }, 0, fun _ => 0⟩

/-- Signal 12 is delivered to the handler of signal 10, which has used some of its stack. -/
theorem handlers_return_twice : ∃ (s : Nest) (f g : SignalFrame),
    s.frames = [f, g] ∧ s.thread.context.sp = f.sp ∧ f.mask = sigaddset 0 10
      ∧ s.thread.sigreturn.context = f.context ∧ s.thread.sigreturn.mask = f.mask
      ∧ Bytes.Apart f.sp 76 g.sp 76 := by
  let ksa : KSigaction := ⟨0x20000, 0, 0x20100, 0⟩
  let t := threadAt 0x5ffffffd
  let t' : Thread := { (t.deliver ksa 10) with
    context := { (t.deliver ksa 10).context with sp := 0x5fffff01 } }
  have hkeeps : HandlerKeeps [⟨t.context, t.mask, handlerSp t.context.sp⟩] (t.deliver ksa 10) t' := by
    intro f hf
    cases hf
    exact ⟨by decide, fun _ _ => rfl⟩
  have hr : Run NestStep ⟨t, []⟩ [.deliver ksa 10, .run t', .deliver ksa 12]
      ⟨t'.deliver ksa 12, [⟨t'.context, t'.mask, handlerSp t'.context.sp⟩,
        ⟨t.context, t.mask, handlerSp t.context.sp⟩]⟩ :=
    ((Run.nil.snoc (.deliver (by decide) (by decide) (by decide) (by decide))).snoc
      (.run (by decide) hkeeps)).snoc (.deliver (by decide) (by decide) (by decide) (by decide))
  obtain ⟨hreturn, hapart⟩ := handlers_return (by decide) hr
  obtain ⟨hcontext, hmask⟩ := hreturn _ rfl rfl
  exact ⟨_, _, _, rfl, rfl, by decide, hcontext, hmask, (List.pairwise_cons.mp hapart).1 _ (by simp)⟩

end Cyanurus
