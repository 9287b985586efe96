import Cyanurus.Mem.Isolation
import Cyanurus.Sys.Pointers

/-!
# The kernel at user addresses

A process has four segments, and a page of the stack is mapped when user code touches it
(`process_demand_page`). The kernel uses user pointers in supervisor mode, without a copy: what is not
mapped then ends in `system_data_abort_handler`, which looks at the mode of the interrupted code
first and halts. The checks of the pointers know of the user range only, not of what is mapped.

`Vm.syscall` is a system call as far as user memory goes: the addresses that its check reads, and if
they pass, the addresses that the call itself uses. How far it comes in its buffer lies with the
files, and is an argument of the call. **`syscall_returns_iff`** says when the call returns.
-/

namespace Cyanurus

open Lts

/-! ## The source -/

/-- `struct segment`; `SEGMENT_FLAGS_GROWSDOWN` or `SEGMENT_FLAGS_GROWSUP`. -/
structure Segment where
  start : Nat
  current : Nat
  stop : Nat
  growsDown : Bool
deriving DecidableEq

/-- What a process is to `mmu.c`, and its segments: text, data, heap and stack. -/
structure Vm where
  mmu : Mmu
  pid : Int
  segments : List Segment

namespace Vm

/-- The loop of `process_demand_page`; the fuel is the number of pages. -/
def growLoop (pid : Int) (base : Nat) : Nat → Mmu → Nat → Except Halt (Mmu × Nat)
  | 0, s, current => .ok (s, current)
  | n + 1, s, current =>
    if current ≤ base then .ok (s, current)
    else do
      let (_, s) ← s.mmuAlloc pid (current - pageSize) pageSize
      growLoop pid base n s (current - pageSize)

/-- `process_demand_page`, where `find_segment` gives the index of the segment. -/
def processDemandPage (vm : Vm) (address : Nat) : Except Halt (Bool × Vm) :=
  let i := vm.segments.findIdx fun g => g.start ≤ address && address < g.stop
  match vm.segments[i]? with
  | none => .ok (false, vm)
  | some g =>
    if g.growsDown = false then .ok (false, vm)
    else if address < g.start ∧ g.current ≤ address then .ok (false, vm)
    else do
      let base := address / pageSize * pageSize
      let (s, current) ← growLoop vm.pid base ((g.current - base) / pageSize + 1) vm.mmu g.current
      .ok (true, { vm with mmu := s, segments := vm.segments.set i { g with current := current } })

/-- `system_data_abort_handler` with a current process: `cpsr` is that of the interrupted code, `fs` the
status of the fault. The process goes on, or gets `SIGSEGV`. -/
def systemDataAbortHandler (vm : Vm) (cpsr fs address : Nat) : Except Halt (Bool × Vm) :=
  if cpsr &&& (2 ^ 5 - 1) ≠ 0x10 then .error .fault
  else if fs = 0x05 ∨ fs = 0x07 then vm.processDemandPage address
  else .ok (false, vm)

/-- The supervisor mode, in which system calls run. -/
def svcMode : Nat := 0x13

/-- The kernel uses a user address. A fault that came back would start the access again. -/
def touch (vm : Vm) (a : Nat) : Except Halt Unit :=
  match vm.mmu.translateOf vm.pid a with
  | none => (vm.systemDataAbortHandler svcMode 0x07 a).map fun _ => ()
  | some (_, access) =>
    if access = .nobody then (vm.systemDataAbortHandler svcMode 0x0f a).map fun _ => () else .ok ()

/-- The bytes that the process sees. -/
def bytes (vm : Vm) : Bytes := fun a =>
  match vm.mmu.translateOf vm.pid a with
  | none => 0
  | some (address, _) => vm.mmu.mem address

end Vm

/-- A system call with pointers, and what the files hold in store for it. -/
inductive UserCall where
  /-- There are `delivered` bytes to be read, none if the descriptor is not good for it. -/
  | read (data size delivered : Nat)
  /-- There is room for `taken` bytes. -/
  | write (data size taken : Nat)
  | openPath (path : Nat)
  /-- `found`: the path names a file. -/
  | stat64 (path buf : Nat) (found : Bool)
  /-- The directory goes on with entries whose names have these lengths; it has none left, or the
  descriptor is not good for it, if there are none. -/
  | getdents64 (data size : Nat) (names : List Nat)
  /-- `free`: two descriptors are free. -/
  | pipe (pipefd : Nat) (free : Bool)

/-- `sizeof(struct stat64)` -/
def stat64Size : Nat := 104

/-- `sizeof(struct dirent64)`; the name starts in its padding, at 19. -/
def dirent64Size : Nat := 24

/-- `reclen`, for a name of this length. -/
def recLen (name : Nat) : Nat := (19 + (name + 1) + 7) / 8 * 8

/-- The loop of `process_getdents64` with `r` bytes filled: where it stores. -/
def getdents64Loop (data size : Nat) : Nat → List Nat → List Nat
  | _, [] => []
  | r, name :: names =>
    if size < r + recLen name then []
    else
      let stores := List.range' (data + r) dirent64Size ++ List.range' (data + r + 19) (name + 1)
      if r + recLen name = size then stores
      else stores ++ getdents64Loop data size (r + recLen name) names

namespace UserCall

/-- The string of the call. -/
def string (m : Bytes) : UserCall → Check
  | openPath path | stat64 path _ _ => checkString m path
  | _ => ⟨true, []⟩

/-- The buffer of the call. -/
def buffer : UserCall → Option (Nat × Nat)
  | read data size _ | write data size _ | getdents64 data size _ => some (data, size)
  | openPath _ => none
  | stat64 _ buf _ => some (buf, stat64Size)
  | pipe pipefd _ => some (pipefd, 8)

/-- The string comes first. -/
def check (m : Bytes) (c : UserCall) : Check :=
  ⟨(c.string m).ok && c.buffer.all fun b => checkAddressRange b.1 b.2, (c.string m).reads⟩

/-- What the call uses of its buffer. -/
def moves : UserCall → List Nat
  | read data size n | write data size n => List.range' data (min n size)
  | openPath _ => []
  | stat64 _ buf found => if found then List.range' buf stat64Size else []
  | getdents64 data size names => getdents64Loop data size 0 names
  | pipe pipefd free => if free then List.range' pipefd 8 else []

end UserCall

/-- A system call; `false` is `-EFAULT`. The string is read once more when the path is looked up. -/
def Vm.syscall (vm : Vm) (c : UserCall) : Except Halt Bool := do
  let check := c.check vm.bytes
  forM check.reads vm.touch
  if check.ok then
    forM ((c.string vm.bytes).reads ++ c.moves) vm.touch
    .ok true
  else .ok false

/-! ## When it returns -/

/-- The kernel may use the address. -/
def Vm.Backed (vm : Vm) (a : Nat) : Prop :=
  ∃ address access, vm.mmu.translateOf vm.pid a = some (address, access) ∧ access ≠ .nobody

variable {vm : Vm} {c : UserCall}

theorem touch_ok {a : Nat} : vm.touch a = .ok () ↔ vm.Backed a := by
  have hhalt : ∀ fs, (vm.systemDataAbortHandler Vm.svcMode fs a).map (fun _ => ()) ≠ .ok () := by
    intro fs h
    unfold Vm.systemDataAbortHandler at h
    cases h
  unfold Vm.touch Vm.Backed
  split
  · rename_i hnone
    simp [hnone, hhalt]
  · rename_i address access hsome
    by_cases hno : access = .nobody
    · simp [hsome, hhalt]
    · simp [hsome, hno]

theorem touches_ok (as : List Nat) : forM as vm.touch = .ok () ↔ ∀ a ∈ as, vm.Backed a := by
  induction as with
  | nil => simp [pure, Except.pure]
  | cons a as ih =>
    rw [List.forM_cons, List.forall_mem_cons, ← ih, ← touch_ok]
    cases vm.touch a with
    | error e => simp [bind, Except.bind]
    | ok u => simp [bind, Except.bind]

/-- The addresses that `check_string` reads: up to the first zero byte, or the end of the range. -/
theorem mem_checkString {m : Bytes} {s a : Nat} : a ∈ (checkString m s).reads ↔
    ∃ i, a = s + i ∧ isUserAddress a = true ∧ ∀ j < i, isUserAddress (s + j) = true ∧ m (s + j) ≠ 0 := by
  fun_induction checkString m s with
  | case1 s huser hzero =>
    rw [List.mem_singleton]
    constructor
    · rintro rfl
      exact ⟨0, rfl, huser, fun j hj => absurd hj (Nat.not_lt_zero j)⟩
    · rintro ⟨i, rfl, -, hbefore⟩
      cases i with
      | zero => rfl
      | succ i => exact absurd hzero (hbefore 0 (Nat.succ_pos i)).2
  | case2 s huser hzero ih =>
    simp only [Check.after, List.singleton_append, List.mem_cons, ih]
    constructor
    · rintro (rfl | ⟨i, rfl, ha, hbefore⟩)
      · exact ⟨0, rfl, huser, fun j hj => absurd hj (Nat.not_lt_zero j)⟩
      · refine ⟨i + 1, by omega, ha, fun j hj => ?_⟩
        cases j with
        | zero => exact ⟨huser, hzero⟩
        | succ j => rw [byte_shift]; exact hbefore j (by omega)
    · rintro ⟨i, rfl, ha, hbefore⟩
      cases i with
      | zero => exact .inl rfl
      | succ i =>
        refine .inr ⟨i, byte_shift s i, ha, fun j hj => ?_⟩
        rw [← byte_shift]
        exact hbefore (j + 1) (by omega)
  | case3 s huser =>
    refine iff_of_false (List.not_mem_nil) ?_
    rintro ⟨i, rfl, ha, hbefore⟩
    cases i with
    | zero => exact huser ha
    | succ i => exact huser (hbefore 0 (Nat.succ_pos i)).1

/-- The string at `path` is mapped up to its end, or to the end of the user range. -/
def Vm.StringBacked (vm : Vm) (path : Nat) : Prop :=
  ∀ i, (∀ j < i, isUserAddress (path + j) = true ∧ vm.bytes (path + j) ≠ 0) →
    isUserAddress (path + i) = true → vm.Backed (path + i)

/-- Of a buffer that passes the check the first `n` bytes are mapped. -/
def Vm.BufferBacked (vm : Vm) (data size n : Nat) : Prop :=
  checkAddressRange data size = true → ∀ i < n, vm.Backed (data + i)

/-- The records that fit into the buffer are mapped where they will be, but for their padding. -/
def Vm.RecordsBacked (vm : Vm) (data size : Nat) (names : List Nat) : Prop :=
  ∀ before name after, names = before ++ name :: after →
    (before.map recLen).sum + recLen name ≤ size →
    ∀ i < max dirent64Size (19 + (name + 1)), vm.Backed (data + (before.map recLen).sum + i)

/-- What the call comes to use is mapped. -/
def UserCall.Backed (vm : Vm) : UserCall → Prop
  | read data size n | write data size n => vm.BufferBacked data size (min n size)
  | openPath path => vm.StringBacked path
  | stat64 path buf found => vm.StringBacked path
      ∧ ((checkString vm.bytes path).ok = true → found = true →
        vm.BufferBacked buf stat64Size stat64Size)
  | getdents64 data size names => checkAddressRange data size = true → vm.RecordsBacked data size names
  | pipe pipefd free => free = true → vm.BufferBacked pipefd 8 8

theorem stringBacked_iff {path : Nat} :
    (∀ a ∈ (checkString vm.bytes path).reads, vm.Backed a) ↔ vm.StringBacked path := by
  simp only [mem_checkString]
  constructor
  · intro h i hbefore ha
    exact h _ ⟨i, rfl, ha, hbefore⟩
  · rintro h a ⟨i, rfl, ha, hbefore⟩
    exact h i hbefore ha

theorem range_backed {a n : Nat} : (∀ x ∈ List.range' a n, vm.Backed x) ↔ ∀ i < n, vm.Backed (a + i) := by
  simp only [List.mem_range', Nat.one_mul]
  constructor
  · exact fun h i hi => h _ ⟨i, hi, rfl⟩
  · rintro h _ ⟨i, hi, rfl⟩
    exact h i hi

/-- A record is stored in two overlapping parts. -/
theorem record_backed {a name : Nat} :
    (∀ x ∈ List.range' a dirent64Size ++ List.range' (a + 19) (name + 1), vm.Backed x) ↔
      ∀ i < max dirent64Size (19 + (name + 1)), vm.Backed (a + i) := by
  rw [List.forall_mem_append, range_backed, range_backed]
  constructor
  · rintro ⟨h1, h2⟩ i hi
    by_cases hin : i < dirent64Size
    · exact h1 i hin
    · unfold dirent64Size at *
      have := h2 (i - 19) (by omega)
      rwa [show a + 19 + (i - 19) = a + i by omega] at this
  · refine fun h => ⟨fun i hi => h i (by omega), fun i hi => ?_⟩
    rw [Nat.add_assoc]
    exact h (19 + i) (by omega)

theorem recordsBacked_cons {data size name : Nat} {names : List Nat} :
    vm.RecordsBacked data size (name :: names) ↔ (recLen name ≤ size →
      (∀ i < max dirent64Size (19 + (name + 1)), vm.Backed (data + i))
        ∧ vm.RecordsBacked (data + recLen name) (size - recLen name) names) := by
  constructor
  · intro h hfits
    refine ⟨?_, fun before name' after he hsum i hi => ?_⟩
    · simpa using h [] name names rfl (by simpa using hfits)
    · have := h (name :: before) name' after (by rw [he]; rfl)
        (by rw [List.map_cons, List.sum_cons]; omega) i hi
      rwa [List.map_cons, List.sum_cons, ← Nat.add_assoc data] at this
  · intro h before name' after he hsum i hi
    cases before with
    | nil =>
      cases he
      simpa using (h (by simpa using hsum)).1 i hi
    | cons b before =>
      cases he
      rw [List.map_cons, List.sum_cons] at *
      have := (h (by omega)).2 before name' after rfl (by omega) i hi
      rwa [Nat.add_assoc data] at this

/-- The loop stores to the records that fit. The induction is on the entries that are left. -/
theorem getdents64Loop_backed {data size : Nat} : ∀ {r : Nat} {names : List Nat}, r ≤ size →
    ((∀ a ∈ getdents64Loop data size r names, vm.Backed a) ↔
      vm.RecordsBacked (data + r) (size - r) names)
  | r, [], _ => by
    refine iff_of_true (fun a ha => absurd ha List.not_mem_nil) fun before name after he => ?_
    exact absurd he (by simp)
  | r, name :: names, hr => by
    rw [recordsBacked_cons, getdents64Loop]
    by_cases hfits : size < r + recLen name
    · rw [if_pos hfits]
      exact iff_of_true (fun a ha => absurd ha List.not_mem_nil) fun h => absurd h (by omega)
    have hrest := @getdents64Loop_backed data size (r + recLen name) names (by omega)
    rw [← Nat.add_assoc data, ← Nat.sub_sub] at hrest
    rw [if_neg hfits, ← record_backed, forall_prop_of_true (by omega), ← hrest]
    by_cases hend : r + recLen name = size
    · -- the buffer is full, and there is no room for another record
      have hnone : getdents64Loop data size (r + recLen name) names = [] := by
        cases names with
        | nil => rfl
        | cons name' names =>
          rw [getdents64Loop, if_pos]
          unfold recLen at *
          omega
      simp only [if_pos hend, hnone, List.not_mem_nil, false_implies, implies_true, and_true]
    · simp only [if_neg hend, List.forall_mem_append]

/-- What the parts of a call need. -/
theorem backed_iff : c.Backed vm ↔ (∀ a ∈ (c.string vm.bytes).reads, vm.Backed a)
    ∧ ((c.check vm.bytes).ok = true → ∀ a ∈ c.moves, vm.Backed a) := by
  cases c with
  | read | write =>
    simp [UserCall.Backed, UserCall.string, UserCall.check, UserCall.buffer, UserCall.moves,
      Vm.BufferBacked, range_backed, -List.mem_range'_1]
  | openPath => simp [UserCall.Backed, UserCall.string, UserCall.moves, stringBacked_iff]
  | stat64 path buf found =>
    cases found <;> simp [UserCall.Backed, UserCall.string, UserCall.check, UserCall.buffer,
      UserCall.moves, stringBacked_iff, Vm.BufferBacked, range_backed, -List.mem_range'_1]
  | getdents64 data size names =>
    simp [UserCall.Backed, UserCall.string, UserCall.check, UserCall.buffer, UserCall.moves,
      getdents64Loop_backed (Nat.zero_le size)]
  | pipe pipefd free =>
    cases free <;> simp [UserCall.Backed, UserCall.string, UserCall.check, UserCall.buffer,
      UserCall.moves, Vm.BufferBacked, range_backed, -List.mem_range'_1]

/-- A call returns if all it touches is mapped. -/
theorem syscall_ok : (∃ r, vm.syscall c = .ok r) ↔ (∀ a ∈ (c.string vm.bytes).reads, vm.Backed a)
    ∧ ((c.check vm.bytes).ok = true → ∀ a ∈ c.moves, vm.Backed a) := by
  rw [← touches_ok]
  show (∃ r, (forM (c.string vm.bytes).reads vm.touch >>= _) = .ok r) ↔ _
  cases hstring : forM (c.string vm.bytes).reads vm.touch with
  | error e => simp [bind, Except.bind]
  | ok u =>
    cases (c.check vm.bytes).ok with
    | false => simp [bind, Except.bind]
    | true =>
      have hagain : forM ((c.string vm.bytes).reads ++ c.moves) vm.touch = .ok () ↔
          ∀ a ∈ c.moves, vm.Backed a := by
        rw [touches_ok, List.forall_mem_append, and_iff_right ((touches_ok _).mp hstring)]
      rw [← hagain]
      cases forM ((c.string vm.bytes).reads ++ c.moves) vm.touch with
      | error e => simp [bind, Except.bind]
      | ok u => simp [bind, Except.bind]

/-- **A call returns exactly if what it comes to use is mapped.** -/
theorem syscall_returns_iff (vm : Vm) (c : UserCall) : (∃ r, vm.syscall c = .ok r) ↔ c.Backed vm :=
  syscall_ok.trans backed_iff.symm

/-! ## A dead kernel -/

/-- The page tables are those of a kernel that has run for a while. -/
def Vm.Reached (vm : Vm) : Prop := ∃ s₀ acts,
  mmuInit (Slab.start (fun _ => 0) fun _ => {}) 0x60000000 = .ok s₀ ∧ Run MmuStep s₀ acts vm.mmu

/-- The segments of a program with one page of text. -/
def onePageSegments : List Segment :=
  [⟨0x10000, 0x11000, 0x11000, false⟩, ⟨0, 0, 0, false⟩, ⟨0x11000, 0x11000, 0x11000, false⟩,
    ⟨0x58000000, 0x5ffff000, 0x60000000, true⟩]

/-- Its text and the first page of its stack are mapped, and it reads to a buffer that is lower on the
stack, where it has not been yet. -/
theorem unmapped_pointer_halts : ¬ ∀ vm : Vm, vm.Reached → ∀ c, ∃ r, vm.syscall c = .ok r := by
  intro h
  have hstart : ∃ fl fc cp, Slab.Inv (Slab.start (fun _ => 0) fun _ => {}) fl fc cp :=
    ⟨_, _, _, Slab.inv_start _ _ fun _ => []⟩
  obtain ⟨s₀, hinit, hroom⟩ := (Mmu.mmuInit_costs 0x60000000 hstart).returns (n := 1000)
    (Buddy.room_init.mono (by decide))
  obtain ⟨sp₀, h₀, _⟩ := Mmu.mmuInit_spaces hstart hinit
  obtain ⟨r₁, s₁, hr₁, hroom⟩ := h₀.alloc_returns 1 0x10000 0x1000 (n := 500) (hroom.mono (by decide))
  obtain ⟨sp, sp₁, h₁, _, hfetch, _, _, _, hres⟩ := h₀.alloc (UInt32.toNat_lt _) hr₁
  obtain ⟨_, _, hmap⟩ := hres.resolve_left fun hneg => absurd hneg.2.2 (by decide)
  obtain ⟨r₂, s₂, hr₂, _⟩ := h₁.alloc_returns 1 0x5ffff000 0x1000 (n := 0) (hroom.mono (by decide))
  obtain ⟨sp', sp₂, h₂, _, hfetch', _, _, _, hres⟩ := h₁.alloc (UInt32.toNat_lt _) hr₂
  obtain ⟨_, _, hmap'⟩ := hres.resolve_left fun hneg => absurd hneg.2.2 (by decide)
  have hleaf : sp₂.leaf 0x5fffe = .none := by
    rw [hmap'.outside (.inl (by decide))]
    obtain rfl : sp₁ = sp' := by
      rcases hfetch' with hold | ⟨hold, _⟩
      · exact Option.some.inj hold
      · cases hold
    rw [hmap.outside (.inr (by decide))]
    rcases hfetch with hold | ⟨_, p, hnew⟩
    · cases hold
    · rw [hnew]
      rfl
  have hnone : s₂.translateOf 1 0x5fffe000 = none := by
    rw [h₂.translateOf (by decide), Function.update_self, Option.bind_some]
    unfold Space.translate
    rw [show 0x5fffe000 / 2 ^ 12 = 0x5fffe from rfl, hleaf]
  have hret := h ⟨s₂, 1, onePageSegments⟩ ⟨s₀, [.alloc 1 0x10000 0x1000, .alloc 1 0x5ffff000 0x1000], hinit,
    (Run.nil.snoc (.alloc hr₁)).snoc (.alloc hr₂)⟩ (.read 0x5fffe000 1 1)
  obtain ⟨_, _, hsome, _⟩ := (syscall_ok.mp hret).2 rfl 0x5fffe000 (by decide)
  exact absurd (hnone.symm.trans hsome) (by simp)

end Cyanurus
