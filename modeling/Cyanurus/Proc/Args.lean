import Cyanurus.Lib.Writes
import Cyanurus.Proc.Dispatch

/-!
# Argument lists

`prepare_argv_and_envp` lays the strings of an exec out in a page of the kernel: a block of
pointers, the lists one after the other and each with a null pointer at its end, and behind it
the strings. `copy_argv_and_envp` goes through the page and lays them out again on the new
stack, behind the number of arguments. A layout is a list of writes (`layStrings`), and what a
memory holds is said with the same list (`Laid`).

**`arguments_arrive`**: what the start-up code of the program finds on its stack are the lists
that the exec was called with. **`oversized_refused`** says when a list that does not fit is
refused: its size is added up in an `int`, and a list of more than two gigabytes is taken for
a short one.
-/

namespace Cyanurus

/-! ## The layout -/

/-- The bytes that the strings of a list take. -/
def stringBytes (strings : List (List UInt8)) : Nat := (strings.map fun s => s.length + 1).sum

/-- `*uarg++ = uchar; while((*uchar++ = *s++));` for every string, and a null pointer. -/
def layStrings : Nat → Nat → List (List UInt8) → List (Nat × List UInt8)
  | uarg, _, [] => [(uarg, Bytes.word 4 0)]
  | uarg, uchar, s :: ss => (uarg, Bytes.word 4 uchar) :: (uchar, s ++ [0])
      :: layStrings (uarg + 4) (uchar + s.length + 1) ss

/-- `struct argv_envp`; the page starts with `argv`. -/
structure ArgvEnvp where
  size : Nat
  nr : Nat
  argc : Nat
  argv : Nat
  envp : Nat

/-- `prepare_argv_and_envp`, with the address of the page that it gets and what it writes
there. -/
def prepareArgvAndEnvp (page : Nat) (argv envp : List (List UInt8)) :
    Except Int (ArgvEnvp × List (Nat × List UInt8)) :=
  let nr := argv.length + envp.length + 2
  let size := Kernel.argSize ((argv ++ envp).map List.length)
  if size > Kernel.argMax then .error Kernel.e2big
  else
    let uchar := page + 4 * nr
    let environ := page + 4 * (argv.length + 1)
    .ok (⟨size.toNat, nr, argv.length, page, environ⟩,
      layStrings page uchar argv ++ layStrings environ (uchar + stringBytes argv) envp)

/-- The bytes of a string up to its zero, if that is among the first `fuel`. -/
def cString (m : Bytes) : Nat → Nat → Option (List UInt8)
  | 0, _ => none
  | fuel + 1, s => if m s = 0 then some [] else (cString m fuel (s + 1)).map (m s :: ·)

/-- One of the loops of `copy_argv_and_envp`: what it writes, and where it leaves `uarg` and
`uchar`. Each string is read from the memory that the copies before it have left. -/
def copyStrings : Nat → Bytes → Nat → Nat → Nat → Option (List (Nat × List UInt8) × Nat × Nat)
  | 0, _, _, _, _ => none
  | fuel + 1, m, argv, uarg, uchar =>
    if m.load 4 argv = 0 then some ([(uarg, Bytes.word 4 0)], uarg + 4, uchar)
    else do
      let m' := m.put uarg (Bytes.word 4 uchar)
      let s ← cString m' Kernel.argMax (m.load 4 argv)
      let (ws, ends) ← copyStrings fuel (m'.put uchar (s ++ [0])) (argv + 4) (uarg + 4)
        (uchar + s.length + 1)
      some ((uarg, Bytes.word 4 uchar) :: (uchar, s ++ [0]) :: ws, ends)

/-- `copy_argv_and_envp`: the new stack pointer and what is written. -/
def copyArgvAndEnvp (m : Bytes) (avep : ArgvEnvp) (ustack : Nat) :
    Option (Nat × List (Nat × List UInt8)) := do
  let stack := ustack - avep.size
  let argc := (stack, Bytes.word 4 avep.argc)
  let (ws, uarg, uchar) ← copyStrings Kernel.argMax (m.put argc.1 argc.2) avep.argv (stack + 4)
    (stack + 4 * avep.nr + 4)
  let (ws', _) ← copyStrings Kernel.argMax (m.writes (argc :: ws)) avep.envp uarg uchar
  some (stack, argc :: (ws ++ ws'))

/-! ## What a program finds -/

/-- The strings of a null-terminated array of pointers. -/
def readStrings (m : Bytes) : Nat → Nat → Option (List (List UInt8))
  | 0, _ => none
  | fuel + 1, argv =>
    if m.load 4 argv = 0 then some []
    else do
      let s ← cString m Kernel.argMax (m.load 4 argv)
      let ss ← readStrings m fuel (argv + 4)
      some (s :: ss)

/-- `__cstart`: `argc`, `argv` and `environ`. -/
def cstart (m : Bytes) (stack : Nat) : Option (Nat × List (List UInt8) × List (List UInt8)) := do
  let argc := m.load 4 stack
  let argv := stack + 4
  let environ := argv + 4 * (argc + 1)
  some (argc, ← readStrings m Kernel.argMax argv, ← readStrings m Kernel.argMax environ)

/-! ## Where the pieces of a layout are -/

section Layout

variable {uarg uchar : Nat} {s : List UInt8} {ss : List (List UInt8)} {w : Nat × List UInt8}

@[simp] theorem stringBytes_cons : stringBytes (s :: ss) = s.length + 1 + stringBytes ss := by
  simp [stringBytes]

/-- A piece is in the block of pointers or among the strings. -/
theorem layStrings_within : ∀ {ss : List (List UInt8)} {uarg uchar : Nat}, w ∈ layStrings uarg uchar ss →
    Bytes.Within uarg (uarg + 4 * (ss.length + 1)) w ∨ Bytes.Within uchar (uchar + stringBytes ss) w
  | [], uarg, uchar, hw => by
    rw [List.mem_singleton.mp hw]
    exact .inl ⟨Nat.le_refl _, by simp⟩
  | s :: ss, uarg, uchar, hw => by
    simp only [Bytes.Within, stringBytes_cons, List.length_cons]
    rcases List.mem_cons.mp hw with rfl | hw
    · left
      simp
    rcases List.mem_cons.mp hw with rfl | hw
    · right
      simp
    · have := layStrings_within hw
      simp only [Bytes.Within] at this
      omega

/-- No two pieces overlap. -/
theorem layStrings_separate : ∀ {ss : List (List UInt8)} {uarg uchar : Nat},
    uarg + 4 * (ss.length + 1) ≤ uchar → (layStrings uarg uchar ss).Pairwise Bytes.Separate
  | [], _, _, _ => List.pairwise_singleton _ _
  | s :: ss, uarg, uchar, h => by
    simp only [List.length_cons] at h
    have hrest : (layStrings (uarg + 4) (uchar + s.length + 1) ss).Pairwise Bytes.Separate :=
      layStrings_separate (by omega)
    have hpointer : Bytes.Within uarg (uarg + 4) (uarg, Bytes.word 4 uchar) :=
      ⟨Nat.le_refl _, by simp⟩
    have hstring : Bytes.Within uchar (uchar + s.length + 1) (uchar, s ++ [0]) :=
      ⟨Nat.le_refl _, by simp; omega⟩
    refine List.pairwise_cons.mpr ⟨fun w hw => ?_, List.pairwise_cons.mpr ⟨fun w hw => ?_, hrest⟩⟩
    · rcases List.mem_cons.mp hw with rfl | hw
      · exact hpointer.separate hstring (by omega)
      · rcases layStrings_within hw with hin | hin
        · exact hpointer.separate hin (by omega)
        · exact hpointer.separate hin (by omega)
    · rcases layStrings_within hw with hin | hin
      · exact hstring.separate hin (by omega)
      · exact hstring.separate hin (by omega)

end Layout

/-! ## Memories that hold a layout -/

/-- The strings are in memory, with pointers to them. -/
def Laid (m : Bytes) (uarg uchar : Nat) (ss : List (List UInt8)) : Prop :=
  ∀ w ∈ layStrings uarg uchar ss, m.Holds w.1 w.2

section Laid

variable {m m' : Bytes} {uarg uchar : Nat} {s : List UInt8} {ss : List (List UInt8)}

theorem Laid.writes {ws : List (Nat × List UInt8)} (h : Laid m uarg uchar ss)
    (hap : ∀ w ∈ ws, ∀ w' ∈ layStrings uarg uchar ss, Bytes.Separate w w') :
    Laid (m.writes ws) uarg uchar ss :=
  fun w' hw' => (h w' hw').writes fun w hw => hap w hw w' hw'

theorem Laid.tail (h : Laid m uarg uchar (s :: ss)) : Laid m (uarg + 4) (uchar + s.length + 1) ss :=
  fun w hw => h w (by simp [layStrings, hw])

theorem Laid.pointer (h : Laid m uarg uchar (s :: ss)) (hlt : uchar < 2 ^ 32) :
    m.load 4 uarg = uchar := by
  rw [(h (uarg, Bytes.word 4 uchar) (by simp [layStrings])).load]
  exact Nat.mod_eq_of_lt hlt

theorem Laid.null (h : Laid m uarg uchar []) : m.load 4 uarg = 0 := by
  rw [(h (uarg, Bytes.word 4 0) (by simp [layStrings])).load]
  rfl

/-- A string that is in memory is read up to its zero. -/
theorem cString_holds : ∀ {s : List UInt8} {fuel a : Nat}, m.Holds a (s ++ [0]) → (∀ c ∈ s, c ≠ 0) →
    s.length < fuel → cString m fuel a = some s
  | _, 0, _, _, _, hf => absurd hf (by omega)
  | [], fuel + 1, a, h, _, _ => by
    have hzero : m a = 0 := h 0 0 rfl
    simp [cString, hzero]
  | c :: s, fuel + 1, a, h, hs, hf => by
    have hc : m a = c := h 0 c rfl
    have hne : c ≠ 0 := hs c (by simp)
    have hrest : cString m fuel (a + 1) = some s :=
      cString_holds h.tail (fun c hc => hs c (by simp [hc])) (by simpa using hf)
    simp [cString, hc, hne, hrest]

/-- Strings without a zero byte, that fit into an argument list. -/
structure Plain (ss : List (List UInt8)) : Prop where
  bytes : ∀ s ∈ ss, ∀ c ∈ s, c ≠ 0
  small : stringBytes ss ≤ Kernel.argMax

theorem Plain.head (h : Plain (s :: ss)) : (∀ c ∈ s, c ≠ 0) ∧ s.length < Kernel.argMax := by
  have := h.small
  rw [stringBytes_cons] at this
  exact ⟨h.bytes s (by simp), by omega⟩

theorem Plain.tail (h : Plain (s :: ss)) : Plain ss := by
  have := h.small
  rw [stringBytes_cons] at this
  exact ⟨fun s hs => h.bytes s (by simp [hs]), by omega⟩

/-- **A layout is read back.** -/
theorem readStrings_laid : ∀ {ss : List (List UInt8)} (fuel : Nat) {uarg uchar : Nat}, Laid m uarg uchar ss →
    Plain ss → 0 < uchar → uchar + stringBytes ss ≤ 2 ^ 32 → ss.length < fuel →
    readStrings m fuel uarg = some ss
  | _, 0, _, _, _, _, _, _, hf => absurd hf (by omega)
  | [], fuel + 1, uarg, uchar, h, _, _, _, _ => by simp [readStrings, h.null]
  | s :: ss, fuel + 1, uarg, uchar, h, hp, hpos, hend, hf => by
    rw [stringBytes_cons] at hend
    have hpointer : m.load 4 uarg = uchar := h.pointer (by omega)
    have hne : uchar ≠ 0 := by omega
    have hstring : cString m Kernel.argMax uchar = some s :=
      cString_holds (h (uchar, s ++ [0]) (by simp [layStrings])) hp.head.1 hp.head.2
    have hrest : readStrings m fuel (uarg + 4) = some ss :=
      readStrings_laid fuel h.tail hp.tail (by omega) (by omega) (by simpa using hf)
    simp only [readStrings, hpointer, if_neg hne, hstring, hrest]
    rfl

/-- **A layout is copied as it is**, to where it does not lie over itself. -/
theorem copyStrings_laid : ∀ {ss : List (List UInt8)} (fuel : Nat) {m : Bytes} {argv chars : Nat}
    (uarg uchar : Nat), Laid m argv chars ss → Plain ss → 0 < chars → chars + stringBytes ss ≤ 2 ^ 32 → ss.length < fuel →
    (∀ w ∈ layStrings uarg uchar ss, ∀ w' ∈ layStrings argv chars ss, Bytes.Separate w w') →
    copyStrings fuel m argv uarg uchar
      = some (layStrings uarg uchar ss, uarg + 4 * (ss.length + 1), uchar + stringBytes ss)
  | _, 0, _, _, _, _, _, _, _, _, _, hf, _ => absurd hf (by omega)
  | [], fuel + 1, m, argv, chars, uarg, uchar, h, _, _, _, _, _ => by
    simp [copyStrings, layStrings, h.null, stringBytes]
  | s :: ss, fuel + 1, m, argv, chars, uarg, uchar, h, hp, hpos, hend, hf, hap => by
    rw [stringBytes_cons] at hend
    have hpointer : m.load 4 argv = chars := h.pointer (by omega)
    have hne : chars ≠ 0 := by omega
    -- the pointer to the copy is stored before the string is read
    have hstring : cString (m.put uarg (Bytes.word 4 uchar)) Kernel.argMax chars = some s := by
      have hkeep := hap (uarg, Bytes.word 4 uchar) (by simp [layStrings]) (chars, s ++ [0])
        (by simp [layStrings])
      exact cString_holds ((h (chars, s ++ [0]) (by simp [layStrings])).keep (Bytes.put_agree m hkeep))
        hp.head.1 hp.head.2
    have hlaid : Laid (m.writes [(uarg, Bytes.word 4 uchar), (uchar, s ++ [0])]) (argv + 4)
        (chars + s.length + 1) ss := by
      refine h.tail.writes fun w hw w' hw' => hap w ?_ w' (by simp [layStrings, hw'])
      simp only [layStrings, List.mem_cons] at hw ⊢
      tauto
    have hrest := copyStrings_laid fuel (uarg + 4) (uchar + s.length + 1) hlaid hp.tail (by omega)
      (by omega) (by simpa using hf) fun w hw w' hw' => hap w (by simp [layStrings, hw]) w' (by simp [layStrings, hw'])
    have hmem : m.writes [(uarg, Bytes.word 4 uchar), (uchar, s ++ [0])]
        = (m.put uarg (Bytes.word 4 uchar)).put uchar (s ++ [0]) := rfl
    rw [hmem] at hrest
    simp only [copyStrings, hpointer, if_neg hne, hstring, Option.bind_eq_bind, Option.bind_some,
      hrest, layStrings, stringBytes_cons, List.length_cons]
    rw [show uarg + 4 + 4 * (ss.length + 1) = uarg + 4 * (ss.length + 1 + 1) by omega,
      show uchar + s.length + 1 + stringBytes ss = uchar + (s.length + 1 + stringBytes ss) by omega]

end Laid

/-! ## Two lists one after the other -/

section Pair

variable {uarg uchar : Nat} {argv envp : List (List UInt8)}

/-- Both lists, as `prepare_argv_and_envp` and `copy_argv_and_envp` lay them out. -/
def layPair (uarg uchar : Nat) (argv envp : List (List UInt8)) : List (Nat × List UInt8) :=
  layStrings uarg uchar argv
    ++ layStrings (uarg + 4 * (argv.length + 1)) (uchar + stringBytes argv) envp

theorem layPair_within (h : uarg + 4 * (argv.length + envp.length + 2) ≤ uchar) {w : Nat × List UInt8}
    (hw : w ∈ layPair uarg uchar argv envp) :
    Bytes.Within uarg (uchar + stringBytes argv + stringBytes envp) w := by
  rcases List.mem_append.mp hw with hw | hw
  · have := layStrings_within hw
    simp only [Bytes.Within] at *
    omega
  · have := layStrings_within hw
    simp only [Bytes.Within] at *
    omega

theorem layPair_separate (h : uarg + 4 * (argv.length + envp.length + 2) ≤ uchar) :
    (layPair uarg uchar argv envp).Pairwise Bytes.Separate := by
  refine List.pairwise_append.mpr ⟨layStrings_separate (by omega), layStrings_separate (by omega), ?_⟩
  intro w hw w' hw'
  have h1 := layStrings_within hw
  have h2 := layStrings_within hw'
  unfold Bytes.Within at h1 h2
  unfold Bytes.Separate Bytes.Apart
  omega

/-- Both lists are found where they were laid. -/
theorem layPair_laid (m : Bytes) {ws : List (Nat × List UInt8)} (hws : ws.Pairwise Bytes.Separate)
    (hsub : ∀ w ∈ layPair uarg uchar argv envp, w ∈ ws) :
    Laid (m.writes ws) uarg uchar argv
      ∧ Laid (m.writes ws) (uarg + 4 * (argv.length + 1)) (uchar + stringBytes argv) envp :=
  ⟨fun w hw => Bytes.writes_holds m hws w (hsub w (List.mem_append_left _ hw)),
    fun w hw => Bytes.writes_holds m hws w (hsub w (List.mem_append_right _ hw))⟩

end Pair

/-! ## The size -/

section Size

variable {argv envp : List (List UInt8)}

/-- The exact number of bytes, before it is rounded. -/
def argExact (argv envp : List (List UInt8)) : Nat :=
  4 + 4 * (argv.length + envp.length + 2) + stringBytes argv + stringBytes envp

theorem argTotal_eq (argv envp : List (List UInt8)) :
    Kernel.argTotal ((argv ++ envp).map List.length) = (argExact argv envp + 7) / 8 * 8 := by
  have hsum : ∀ ss : List (List UInt8), ((ss.map List.length).map (· + 1)).sum = stringBytes ss :=
    fun ss => by rw [List.map_map]; rfl
  unfold Kernel.argTotal argExact
  rw [List.map_append, List.map_append, List.sum_append, hsum, hsum, List.length_append,
    List.length_map, List.length_map]
  omega

/-- The size as the kernel computes it. -/
theorem argSize_le_iff (lens : List Nat) : Kernel.argSize lens ≤ Kernel.argMax ↔
    Kernel.argTotal lens % 2 ^ 32 ≤ Kernel.argMax ∨ 2 ^ 31 ≤ Kernel.argTotal lens % 2 ^ 32 := by
  unfold Kernel.argSize Kernel.argMax
  rw [Int.bmod_def]
  simp only
  split <;> split <;> omega

theorem argSize_eq {lens : List Nat} (h : Kernel.argTotal lens ≤ Kernel.argMax) :
    Kernel.argSize lens = max 0x100 (Kernel.argTotal lens : Int) := by
  unfold Kernel.argSize Kernel.argMax at *
  rw [Int.bmod_def]
  simp only
  split <;> split <;> omega

/-- A list that fits is laid out in its page. -/
theorem prepareArgvAndEnvp_ok (page : Nat)
    (h : Kernel.argTotal ((argv ++ envp).map List.length) ≤ Kernel.argMax) : ∃ size,
    prepareArgvAndEnvp page argv envp = .ok (⟨size, argv.length + envp.length + 2, argv.length, page,
        page + 4 * (argv.length + 1)⟩,
      layPair page (page + 4 * (argv.length + envp.length + 2)) argv envp)
    ∧ argExact argv envp ≤ size ∧ size ≤ Kernel.argMax ∧ size % 8 = 0 := by
  have hsize := argSize_eq h
  have hexact := argTotal_eq argv envp
  have hmax : Kernel.argMax = 4096 := rfl
  refine ⟨(Kernel.argSize ((argv ++ envp).map List.length)).toNat, ?_, by omega, by omega, by omega⟩
  unfold prepareArgvAndEnvp
  rw [if_neg (by omega)]
  rfl

end Size

/-! ## The way to the stack -/

section Copy

variable {argv envp : List (List UInt8)} {m : Bytes} {page stack size : Nat}

/-- The stack of the new program: the number of arguments and the two lists. -/
def stackImage (stack : Nat) (argv envp : List (List UInt8)) : List (Nat × List UInt8) :=
  (stack, Bytes.word 4 argv.length)
    :: layPair (stack + 4) (stack + 4 * (argv.length + envp.length + 2) + 4) argv envp

theorem stackImage_within {w : Nat × List UInt8} (hw : w ∈ stackImage stack argv envp) :
    Bytes.Within stack (stack + argExact argv envp) w := by
  rcases List.mem_cons.mp hw with rfl | hw
  · unfold Bytes.Within argExact
    simp only [Bytes.length_word]
    omega
  · have := layPair_within (by omega) hw
    unfold Bytes.Within argExact at *
    omega

theorem stackImage_separate : (stackImage stack argv envp).Pairwise Bytes.Separate := by
  refine List.pairwise_cons.mpr ⟨fun w hw => ?_, layPair_separate (by omega)⟩
  have := layPair_within (by omega) hw
  unfold Bytes.Within at this
  unfold Bytes.Separate Bytes.Apart
  simp only [Bytes.length_word]
  omega

/-- **The lists are copied from the page to the stack.** -/
theorem copyArgvAndEnvp_laid (ustack : Nat) (hargv : Plain argv) (henvp : Plain envp)
    (hsize : argExact argv envp ≤ size) (hmax : size ≤ Kernel.argMax) (hroom : size ≤ ustack)
    (hpage : 0 < page ∧ page + Kernel.argMax ≤ 2 ^ 32)
    (hap : Bytes.Apart page Kernel.argMax (ustack - size) size)
    (h : ∀ w ∈ layPair page (page + 4 * (argv.length + envp.length + 2)) argv envp, m.Holds w.1 w.2) :
    copyArgvAndEnvp m ⟨size, argv.length + envp.length + 2, argv.length, page,
        page + 4 * (argv.length + 1)⟩ ustack
      = some (ustack - size, stackImage (ustack - size) argv envp) := by
  have hlen : argv.length < Kernel.argMax ∧ envp.length < Kernel.argMax := by
    unfold argExact at hsize
    omega
  -- whatever goes to the stack is apart from the page
  have hsep : ∀ w ∈ stackImage (ustack - size) argv envp,
      ∀ w' ∈ layPair page (page + 4 * (argv.length + envp.length + 2)) argv envp,
        Bytes.Separate w w' := by
    intro w hw w' hw'
    have h1 := stackImage_within hw
    have h2 := layPair_within (Nat.le_refl _) hw'
    unfold argExact at *
    unfold Bytes.Within at h1 h2
    unfold Bytes.Apart at hap
    unfold Bytes.Separate Bytes.Apart
    omega
  have hend : page + 4 * (argv.length + envp.length + 2) + stringBytes argv + stringBytes envp
      ≤ 2 ^ 32 := by
    unfold argExact at hsize
    omega
  have h1 : Laid (m.put (ustack - size) (Bytes.word 4 argv.length)) page
      (page + 4 * (argv.length + envp.length + 2)) argv := fun w hw =>
    (h w (List.mem_append_left _ hw)).keep (Bytes.put_agree m
      (hsep _ List.mem_cons_self w (List.mem_append_left _ hw)))
  have hcopy := copyStrings_laid Kernel.argMax (ustack - size + 4)
    (ustack - size + 4 * (argv.length + envp.length + 2) + 4) h1 hargv (by omega) (by omega)
    hlen.1 fun w hw w' hw' => hsep w (List.mem_cons_of_mem _ (List.mem_append_left _ hw)) w'
      (List.mem_append_left _ hw')
  have h2 : Laid (m.writes ((ustack - size, Bytes.word 4 argv.length)
        :: layStrings (ustack - size + 4) (ustack - size + 4 * (argv.length + envp.length + 2) + 4) argv))
      (page + 4 * (argv.length + 1)) (page + 4 * (argv.length + envp.length + 2) + stringBytes argv)
      envp := by
    refine Laid.writes (fun w hw => h w (List.mem_append_right _ hw)) fun w hw w' hw' => ?_
    refine hsep w ?_ w' (List.mem_append_right _ hw')
    rcases List.mem_cons.mp hw with rfl | hw
    · exact List.mem_cons_self
    · exact List.mem_cons_of_mem _ (List.mem_append_left _ hw)
  have hcopy' := copyStrings_laid Kernel.argMax (ustack - size + 4 + 4 * (argv.length + 1))
    (ustack - size + 4 * (argv.length + envp.length + 2) + 4 + stringBytes argv)
    h2 henvp (by omega) (by omega) hlen.2
    fun w hw w' hw' => hsep w (List.mem_cons_of_mem _ (List.mem_append_right _ hw)) w'
      (List.mem_append_right _ hw')
  unfold copyArgvAndEnvp
  simp only [hcopy, hcopy', Option.bind_eq_bind, Option.bind_some]
  rfl

/-- What the start-up code finds. -/
theorem cstart_stackImage (m : Bytes) (hargv : Plain argv) (henvp : Plain envp)
    (hmax : argExact argv envp ≤ Kernel.argMax) (hend : stack + argExact argv envp ≤ 2 ^ 32) :
    cstart (m.writes (stackImage stack argv envp)) stack = some (argv.length, argv, envp) := by
  have hlen : argv.length < Kernel.argMax ∧ envp.length < Kernel.argMax := by
    unfold argExact at hmax
    omega
  have hargc : (m.writes (stackImage stack argv envp)).load 4 stack = argv.length := by
    rw [(Bytes.writes_holds m stackImage_separate _ List.mem_cons_self).load]
    refine Nat.mod_eq_of_lt ?_
    have : Kernel.argMax = 4096 := rfl
    omega
  have hlists : ∀ w ∈ layPair (stack + 4) (stack + 4 * (argv.length + envp.length + 2) + 4) argv envp,
      w ∈ stackImage stack argv envp := fun w hw => List.mem_cons_of_mem _ hw
  obtain ⟨h1, h2⟩ := layPair_laid m stackImage_separate hlists
  unfold argExact at hend
  have hread := readStrings_laid Kernel.argMax h1 hargv (by omega) (by omega) hlen.1
  have hread' := readStrings_laid Kernel.argMax h2 henvp (by omega) (by omega) hlen.2
  unfold cstart
  simp only [hargc, hread, hread', Option.bind_eq_bind, Option.bind_some]

end Copy

/-- **Program arguments arrive unchanged.** The page may be anywhere but on the new stack, and
memory may change in between where it is not. -/
theorem arguments_arrive (argv envp : List (List UInt8)) (m : Bytes) (page ustack : Nat)
    (hbytes : ∀ s ∈ argv ++ envp, ∀ c ∈ s, c ≠ 0) (hmax : argExact argv envp ≤ Kernel.argMax)
    (hpage : 0 < page ∧ page + Kernel.argMax ≤ 2 ^ 32)
    (hstack : ustack % 8 = 0 ∧ Kernel.argMax ≤ ustack ∧ ustack ≤ 2 ^ 32)
    (hap : Bytes.Apart page Kernel.argMax (ustack - Kernel.argMax) Kernel.argMax) :
    ∃ avep ws, prepareArgvAndEnvp page argv envp = .ok (avep, ws)
      ∧ ∀ m', (m.writes ws).Agree m' page Kernel.argMax →
        ∃ sp ws', copyArgvAndEnvp m' avep ustack = some (sp, ws')
          ∧ sp % 8 = 0 ∧ sp ≤ ustack ∧ ustack ≤ sp + Kernel.argMax
          ∧ (∀ w ∈ ws', Bytes.Within sp ustack w) ∧ ws'.Pairwise Bytes.Separate
          ∧ cstart (m'.writes ws') sp = some (argv.length, argv, envp) := by
  have htotal := argTotal_eq argv envp
  have h4096 : Kernel.argMax = 4096 := rfl
  have hfits : Kernel.argTotal ((argv ++ envp).map List.length) ≤ Kernel.argMax := by omega
  obtain ⟨size, hprepare, hsize, hle, halign⟩ := prepareArgvAndEnvp_ok page hfits
  have hargv : Plain argv :=
    ⟨fun s hs => hbytes s (List.mem_append_left _ hs), by unfold argExact at hmax; omega⟩
  have henvp : Plain envp :=
    ⟨fun s hs => hbytes s (List.mem_append_right _ hs), by unfold argExact at hmax; omega⟩
  refine ⟨_, _, hprepare, fun m' hm' => ?_⟩
  have hholds : ∀ w ∈ layPair page (page + 4 * (argv.length + envp.length + 2)) argv envp,
      m'.Holds w.1 w.2 := by
    intro w hw
    have hin := layPair_within (Nat.le_refl _) hw
    unfold Bytes.Within at hin
    unfold argExact at hsize
    exact (Bytes.writes_holds m (layPair_separate (Nat.le_refl _)) w hw).keep
      (hm'.sub (by omega) (by omega))
  have hcopy := copyArgvAndEnvp_laid ustack hargv henvp hsize hle (by omega) hpage
    (by unfold Bytes.Apart at *; omega) hholds
  refine ⟨_, _, hcopy, by omega, by omega, by omega, fun w hw => ?_, stackImage_separate,
    cstart_stackImage m' hargv henvp hmax (by omega)⟩
  have hin := stackImage_within hw
  unfold Bytes.Within at *
  omega

/-- An empty string, a list with a string twice, and an environment. -/
theorem arguments_arrive_three : ∃ avep ws sp ws',
    prepareArgvAndEnvp 0x61000000 [[99], [], [99]] [[65, 61, 49]] = .ok (avep, ws)
      ∧ copyArgvAndEnvp (Bytes.writes (fun _ => 0) ws) avep 0x60000000 = some (sp, ws')
      ∧ sp % 8 = 0 ∧ cstart (Bytes.writes (Bytes.writes (fun _ => 0) ws) ws') sp
        = some (3, [[99], [], [99]], [[65, 61, 49]]) := by
  obtain ⟨avep, ws, hprepare, h⟩ := arguments_arrive [[99], [], [99]] [[65, 61, 49]] (fun _ => 0)
    0x61000000 0x60000000 (by simp) (by decide) (by decide) (by decide) (.inr (by decide))
  obtain ⟨sp, ws', hcopy, halign, _, _, _, _, hstart⟩ := h _ (Bytes.Agree.refl _ _ _)
  exact ⟨avep, ws, sp, ws', hprepare, hcopy, halign, hstart⟩

/-! ## Lists that do not fit -/

/-- The list is refused exactly if it does not fit, and one that fits stays in its page. -/
def Refuses (argv envp : List (List UInt8)) : Prop :=
  ∀ page, (Kernel.argTotal ((argv ++ envp).map List.length) > Kernel.argMax →
      prepareArgvAndEnvp page argv envp = .error Kernel.e2big)
    ∧ (Kernel.argTotal ((argv ++ envp).map List.length) ≤ Kernel.argMax →
      ∃ avep ws, prepareArgvAndEnvp page argv envp = .ok (avep, ws)
        ∧ ∀ w ∈ ws, Bytes.Within page (page + Kernel.argMax) w)

/-- The 32-bit number that the size of the list is cut to. -/
def cutSize (argv envp : List (List UInt8)) : Nat :=
  Kernel.argTotal ((argv ++ envp).map List.length) % 2 ^ 32

theorem prepareArgvAndEnvp_refused_iff (page : Nat) (argv envp : List (List UInt8)) :
    prepareArgvAndEnvp page argv envp = .error Kernel.e2big
      ↔ Kernel.argMax < cutSize argv envp ∧ cutSize argv envp < 2 ^ 31 := by
  have hcut := argSize_le_iff ((argv ++ envp).map List.length)
  unfold prepareArgvAndEnvp cutSize
  simp only
  split
  · simp only [true_iff]
    omega
  · simp only [reduceCtorEq, false_iff]
    omega

/-- **Oversized lists are refused** exactly if their size, as a 32-bit number, is above the
limit and not taken for a negative one. -/
theorem oversized_refused (argv envp : List (List UInt8)) : Refuses argv envp ↔
    (Kernel.argTotal ((argv ++ envp).map List.length) ≤ Kernel.argMax
      ∨ Kernel.argMax < cutSize argv envp ∧ cutSize argv envp < 2 ^ 31) := by
  constructor
  · intro h
    rcases Nat.lt_or_ge Kernel.argMax (Kernel.argTotal ((argv ++ envp).map List.length)) with hbig | hfits
    · exact .inr ((prepareArgvAndEnvp_refused_iff 0 argv envp).mp ((h 0).1 hbig))
    · exact .inl hfits
  · rintro (hfits | hcut) page
    · refine ⟨fun hbig => absurd hbig (by omega), fun _ => ?_⟩
      obtain ⟨size, hprepare, hsize, hle, _⟩ := prepareArgvAndEnvp_ok page hfits
      refine ⟨_, _, hprepare, fun w hw => ?_⟩
      have hin := layPair_within (Nat.le_refl _) hw
      unfold argExact at hsize
      unfold Bytes.Within at *
      omega
    · refine ⟨fun _ => (prepareArgvAndEnvp_refused_iff page argv envp).mpr hcut, fun hfits => ?_⟩
      -- a size below the limit is not cut
      unfold cutSize at *
      omega

/-- A million pointers to a string of two kilobytes are taken for a list of 256 bytes. -/
theorem oversized_accepted : ¬ ∀ argv envp : List (List UInt8), Refuses argv envp := by
  intro h
  let argv := List.replicate (2 ^ 20) (List.replicate 2047 (1 : UInt8))
  have htotal : Kernel.argTotal ((argv ++ []).map List.length) = 2 ^ 31 + 2 ^ 22 + 16 := by
    simp only [argv, Kernel.argTotal, List.append_nil, List.map_replicate, List.length_replicate,
      List.sum_replicate_nat]
    decide
  have hcut : cutSize argv [] = 2 ^ 31 + 2 ^ 22 + 16 := by
    unfold cutSize
    rw [htotal]
    decide
  have hrefused := (h argv [] 0).1 (by rw [htotal]; decide)
  have := (prepareArgvAndEnvp_refused_iff 0 argv []).mp hrefused
  omega

end Cyanurus
