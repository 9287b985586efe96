import Cyanurus.Fs.Bitmap
import Cyanurus.Mem.SlabFrame

/-!
# The block cache

`src/kernel/block.c` over `mmc_read` and `mmc_write` of `src/kernel/mmc.c`. A cached
block is a `struct block` from a slab cache with a buffer of one page; it is on
`used_blocks` once it holds a block of the card and never leaves that list again.

The card is an array of bytes, and one sector is transferred as a whole. The records
`struct block` are kept at their addresses and the two lists as lists of these, first
entry first; the buffers lie in memory, beside everything else that is allocated.

The file system above sees an array of blocks (`Disk`), and the cache cannot be told
from it (`blockStep_simulates`): the buffers agree with the card in every state
(`Blocks.Inv.coherent`), because a block is written to both at once. What the array does
not show is that blocks are never given up: after as many different blocks as the pool
has pages the kernel is out of memory.
-/

namespace Cyanurus

open Bytes Lts

/-! ## The card -/

def mmcBlockSize : Nat := 0x200

/-- The loop of `mmc_read`, from sector to sector. -/
def mmcReadLoop (card : Bytes) : Nat → Nat → Bytes → Nat → Bytes
  | 0, _, m, _ => m
  | n + 1, address, m, buf =>
    mmcReadLoop card n (address + mmcBlockSize) (m.copy buf card address mmcBlockSize)
      (buf + mmcBlockSize)

/-- `mmc_read`: the memory with what was read to `buf`. -/
def mmcRead (card : Bytes) (address size : Nat) (m : Bytes) (buf : Nat) : Int × Bytes :=
  if size % mmcBlockSize ≠ 0 then (-1, m)
  else (0, mmcReadLoop card (size / mmcBlockSize) address m buf)

/-- The loop of `mmc_write`. -/
def mmcWriteLoop (m : Bytes) : Nat → Nat → Bytes → Nat → Bytes
  | 0, _, card, _ => card
  | n + 1, address, card, buf =>
    mmcWriteLoop m n (address + mmcBlockSize) (card.copy address m buf mmcBlockSize)
      (buf + mmcBlockSize)

/-- `mmc_write`: the card with what was written from `buf`. -/
def mmcWrite (card : Bytes) (address size : Nat) (m : Bytes) (buf : Nat) : Int × Bytes :=
  if size % mmcBlockSize ≠ 0 then (-1, card)
  else (0, mmcWriteLoop m (size / mmcBlockSize) address card buf)

theorem mmcReadLoop_eq (card : Bytes) : ∀ (n address : Nat) (m : Bytes) (buf : Nat),
    mmcReadLoop card n address m buf = m.copy buf card address (mmcBlockSize * n) := by
  intro n
  induction n with
  | zero =>
    intro address m buf
    rw [mmcReadLoop, Nat.mul_zero, copy_nothing]
  | succ n ih =>
    intro address m buf
    rw [mmcReadLoop, ih, copy_copy, Nat.mul_succ, Nat.add_comm]

theorem mmcWriteLoop_eq (m : Bytes) : ∀ (n address : Nat) (card : Bytes) (buf : Nat),
    mmcWriteLoop m n address card buf = card.copy address m buf (mmcBlockSize * n) := by
  intro n
  induction n with
  | zero =>
    intro address card buf
    rw [mmcWriteLoop, Nat.mul_zero, copy_nothing]
  | succ n ih =>
    intro address card buf
    rw [mmcWriteLoop, ih, copy_copy, Nat.mul_succ, Nat.add_comm]

/-- A block is eight sectors. -/
theorem mmcRead_block (card : Bytes) (address : Nat) (m : Bytes) (buf : Nat) :
    (mmcRead card address blockSize m buf).2 = m.copy buf card address blockSize := by
  unfold mmcRead
  rw [mmcReadLoop_eq]
  rfl

theorem mmcWrite_block (card : Bytes) (address : Nat) (m : Bytes) (buf : Nat) :
    (mmcWrite card address blockSize m buf).2 = card.copy address m buf blockSize := by
  unfold mmcWrite
  rw [mmcWriteLoop_eq]
  rfl

/-! ## The cache -/

/-- `struct block`, apart from its link. -/
structure Block where
  index : Nat := 0
  page : Nat := 0
  data : Nat := 0

/-- The ways a call of the block layer does not return. -/
inductive BlockHalt where
  /-- A call of an allocator does not. -/
  | halt (h : Halt)
  /-- "broken block cache" -/
  | broken
  /-- The head of `free_blocks` is taken for a block. -/
  | wild
deriving DecidableEq, Repr

/-- What the variable of a `list_foreach` points to: the head after the last round. -/
inductive Cursor where
  | null
  | head
  | entry (block : Nat)
deriving DecidableEq, Repr

/-- The variables of `block.c`, with the memory and the card. -/
structure Blocks where
  world : Slab.World
  /-- `block_cache` -/
  blockCache : Nat
  /-- The block at an address. -/
  block : Nat → Block
  /-- `used_blocks` -/
  usedBlocks : List Nat
  /-- `free_blocks` -/
  freeBlocks : List Nat
  card : Bytes

/-- `sizeof(struct block)` -/
def blockBytes : Nat := 20

/-- `block_init` -/
def blockInit (w : Slab.World) (card : Bytes) : Except Halt Blocks := do
  let (cache, t) ← slabCacheCreate w.heap [98, 108, 111, 99, 107] blockBytes
  .ok ⟨{ w with heap := t, created := cache.toList ++ w.created }, ptrWord cache, fun _ => {}, [], [],
    card⟩

namespace Blocks

/-- `BLOCKS_PER_PAGE` -/
def blocksPerPage : Nat := pageSize / blockSize

/-- The loop of `prepare_blocks`, from round `i` on. -/
def prepareLoop (page address : Nat) : Nat → Nat → Blocks → Except BlockHalt Blocks
  | 0, _, s => .ok s
  | n + 1, i, s => do
      let (block, w) ← (s.world.cacheAlloc s.blockCache).mapError .halt
      prepareLoop page address n (i + 1) { s with
        world := w
        block := Function.update s.block block { page := page, data := address + i * blockSize }
        freeBlocks := block :: s.freeBlocks }

/-- `prepare_blocks` -/
def prepareBlocks (s : Blocks) : Except BlockHalt Blocks := do
  let (page, w) ← (s.world.pageAlloc pageSize).mapError .halt
  prepareLoop page (pageAddress page) blocksPerPage 0 { s with world := w }

/-- The second loop of `get_block`, which takes the first entry off the list. -/
def takeFree (s : Blocks) : Cursor × Blocks :=
  match s.freeBlocks with
  | [] => (.head, s)
  | block :: rest => (.entry block, { s with freeBlocks := rest })

/-- `get_block` -/
def getBlock (s : Blocks) (index : Nat) : Except BlockHalt (Nat × Blocks) :=
  match s.usedBlocks.find? fun b => (s.block b).index == index with
  | some block => .ok (block, s)
  | none => do
      let s ← if s.freeBlocks.isEmpty then s.prepareBlocks else .ok s
      match s.takeFree with
      | (.null, _) => .error .broken
      | (.head, _) => .error .wild
      | (.entry block, s) =>
        let s := { s with
          block := Function.update s.block block { s.block block with index := index }
          usedBlocks := block :: s.usedBlocks }
        let m := (mmcRead s.card (index * blockSize) blockSize s.world.heap.mem (s.block block).data).2
        .ok (block, { s with world := s.world.setMem m })

/-- `block_read` into a buffer of the caller, whose index is a 16-bit number. -/
def blockRead (s : Blocks) (index : Nat) : Except BlockHalt (Bytes × Blocks) := do
  let (block, s) ← s.getBlock (index % 2 ^ 16)
  .ok (Bytes.copy (fun _ => 0) 0 s.world.heap.mem (s.block block).data blockSize, s)

/-- `block_write` -/
def blockWrite (s : Blocks) (index : Nat) (data : Bytes) : Except BlockHalt Blocks := do
  let (block, s) ← s.getBlock (index % 2 ^ 16)
  let m := s.world.heap.mem.copy (s.block block).data data 0 blockSize
  .ok { s with
    world := s.world.setMem m
    card := (mmcWrite s.card (index % 2 ^ 16 * blockSize) blockSize m (s.block block).data).2 }

/-- All blocks of the cache. -/
def all (s : Blocks) : List Nat := s.usedBlocks ++ s.freeBlocks

end Blocks

/-! ## The system -/

inductive BlockAct where
  | read (index : Nat) (data : Bytes)
  | write (index : Nat) (data : Bytes)
  | other (a : Slab.Act)

/-- The act is not about an object or a page of the cache. -/
def Blocks.Foreign (s : Blocks) : Slab.Act → Prop
  | .free c _ => c ≠ s.blockCache
  | .write c _ => c ≠ s.blockCache
  | .pageFree p => ∀ b ∈ s.all, (s.block b).page ≠ p
  | .pageWrite p => ∀ b ∈ s.all, (s.block b).page ≠ p
  | _ => True

/-- Calls of the block layer, with what they return, and what others do to memory meanwhile. -/
inductive BlockStep : Blocks → BlockAct → Blocks → Prop where
  | read {s s' : Blocks} {index : Nat} {data : Bytes} :
      s.blockRead index = .ok (data, s') → BlockStep s (.read index data) s'
  | write {s s' : Blocks} {index : Nat} {data : Bytes} :
      s.blockWrite index data = .ok s' → BlockStep s (.write index data) s'
  | other {s : Blocks} {a : Slab.Act} {w : Slab.World} :
      s.Foreign a → Slab.Step s.world a w → BlockStep s (.other a) { s with world := w }

/-- The same calls on an array of blocks, without a cache. -/
inductive DiskStep : Disk → BlockAct → Disk → Prop where
  | read {d : Disk} {index : Nat} {data : Bytes} :
      (∀ x, x < blockSize → data x = blockRead d index x) → DiskStep d (.read index data) d
  | write {d : Disk} {index : Nat} {data : Bytes} :
      DiskStep d (.write index data) (blockWrite d index data)
  | other {d : Disk} {a : Slab.Act} : DiskStep d (.other a) d

/-- The blocks of a card. -/
def cardBlocks (card : Bytes) : Disk := fun index x => card (index * blockSize + x)

/-- The card holds these blocks. -/
def CardHolds (card : Bytes) (d : Disk) : Prop :=
  ∀ index, index < 2 ^ 16 → ∀ x, x < blockSize → cardBlocks card index x = d index x

/-! ## The invariant -/

/-- The invariant of the cache. -/
structure Blocks.Inv (s : Blocks) : Prop where
  heap : ∃ fl fc cp, Slab.Inv s.world fl fc cp
  cache : s.blockCache ∈ s.world.created
  /-- No block is on both lists, or twice on one. -/
  nodup : s.all.Nodup
  /-- A block is a live object, and its buffer is a page the cache holds. -/
  held : ∀ b ∈ s.all, (s.blockCache, b) ∈ s.world.live ∧ (s.block b).page ∈ s.world.other
    ∧ (s.block b).data = pageAddress (s.block b).page
  /-- No two blocks share a page. -/
  pages : ∀ b ∈ s.all, ∀ b' ∈ s.all, (s.block b).page = (s.block b').page → b = b'
  /-- No block of the card is cached twice. -/
  once : (s.usedBlocks.map fun b => (s.block b).index).Nodup
  /-- A buffer holds what the card holds. -/
  coherent : ∀ b ∈ s.usedBlocks, (s.block b).index < 2 ^ 16 ∧ ∀ x, x < blockSize →
    s.world.heap.mem ((s.block b).data + x) = cardBlocks s.card (s.block b).index x

variable {s s' : Blocks} {b index : Nat}

/-- The block of pages behind a buffer is at least one page long. -/
theorem blockSize_le (k : Nat) : blockSize ≤ 2 ^ k * pageSize :=
  Nat.le_mul_of_pos_left _ (Nat.two_pow_pos k)

/-- **Two buffers do not overlap.** -/
theorem Blocks.Inv.apart (hi : s.Inv) {b' : Nat} (hb : b ∈ s.all) (hb' : b' ∈ s.all) (hne : b ≠ b') :
    Apart (s.block b).data blockSize (s.block b').data blockSize := by
  obtain ⟨_, _, _, hw⟩ := hi.heap
  obtain ⟨_, hp, hd⟩ := hi.held b hb
  obtain ⟨_, hp', hd'⟩ := hi.held b' hb'
  have hap := hw.page_apart hp hp' fun he => hne (hi.pages b hb b' hb' he)
  have h1 := blockSize_le (s.world.heap.buddy.pages (s.block b).page).order
  have h2 := blockSize_le (s.world.heap.buddy.pages (s.block b').page).order
  unfold Apart at *
  omega

/-- **What others do to memory does not reach the cache.** -/
theorem Blocks.Inv.foreign (hi : s.Inv) {a : Slab.Act} {w : Slab.World}
    (h : Slab.Step s.world a w) (hf : s.Foreign a) : Blocks.Inv { s with world := w } := by
  obtain ⟨fl, fc, cp, hw⟩ := hi.heap
  have hkept : ∀ b ∈ s.all, (s.block b).page ∈ w.other
      ∧ Slab.PageKept s.world.heap w.heap (s.block b).page := by
    intro b hb
    refine h.page_kept hw (hi.held b hb).2.1 ?_ ?_
    · intro he
      subst he
      exact hf b hb rfl
    · intro he
      subst he
      exact hf b hb rfl
  refine ⟨Slab.inv_step hw h, h.created_kept hi.cache, hi.nodup, fun b hb => ?_, hi.pages, hi.once,
    fun b hb => ⟨(hi.coherent b hb).1, fun x hx => ?_⟩⟩
  · obtain ⟨hl, _, hd⟩ := hi.held b hb
    refine ⟨h.live_kept hl fun he => ?_, (hkept b hb).1, hd⟩
    subst he
    exact hf rfl
  · have hall : b ∈ s.all := List.mem_append_left _ hb
    rw [← (hi.coherent b hb).2 x hx]
    have hd := (hi.held b hall).2.2
    have hle := blockSize_le (s.world.heap.buddy.pages (s.block b).page).order
    refine (hkept b hall).2.bytes _ ?_ ?_
    · show _ ≤ (s.block b).data + x
      omega
    · show (s.block b).data + x < _
      omega

/-! ## The operations -/

/-- There is no page left for a buffer, or none for the record of a block. -/
def Blocks.Exhausted (s : Blocks) : Prop :=
  s.world.pageAlloc pageSize = .error .outOfMemory
    ∨ ∃ p w, s.world.pageAlloc pageSize = .ok (p, w) ∧ w.cacheAlloc s.blockCache = .error .outOfMemory

/-- The block of the card is in the cache. -/
def Blocks.Cached (s : Blocks) (index : Nat) : Prop := ∃ b ∈ s.usedBlocks, (s.block b).index = index

/-- A block with a page of its own joins the free ones. -/
theorem Blocks.Inv.add (hi : s.Inv) {p : Nat} (hl : (s.blockCache, b) ∈ s.world.live)
    (hp : p ∈ s.world.other) (hnew : b ∉ s.all) (hpage : ∀ b' ∈ s.all, (s.block b').page ≠ p) :
    Blocks.Inv { s with
      block := Function.update s.block b { page := p, data := pageAddress p }
      freeBlocks := b :: s.freeBlocks } := by
  have hold : ∀ b' ∈ s.all, Function.update s.block b { page := p, data := pageAddress p } b'
      = s.block b' := fun b' hb' => Function.update_of_ne (ne_of_mem_of_not_mem hb' hnew) _ _
  have hself : Function.update s.block b { page := p, data := pageAddress p } b
      = { page := p, data := pageAddress p } := Function.update_self ..
  have hused : ∀ b' ∈ s.usedBlocks, b' ∈ s.all := fun _ h => List.mem_append_left _ h
  have hmem : ∀ {b'}, b' ∈ s.usedBlocks ++ b :: s.freeBlocks → b' = b ∨ b' ∈ s.all :=
    fun h => List.mem_cons.mp (List.perm_middle.mem_iff.mp h)
  refine ⟨hi.heap, hi.cache, List.nodup_middle.mpr (List.nodup_cons.mpr ⟨hnew, hi.nodup⟩), ?_, ?_, ?_,
    ?_⟩
  · intro b' hb'
    simp only
    rcases hmem hb' with rfl | hb'
    · rw [hself]
      exact ⟨hl, hp, rfl⟩
    · rw [hold b' hb']
      exact hi.held b' hb'
  · intro b1 h1 b2 h2 he
    simp only at he
    rcases hmem h1 with he1 | h1 <;> rcases hmem h2 with he2 | h2
    · rw [he1, he2]
    · rw [he1, hself, hold b2 h2] at he
      exact absurd he.symm (hpage b2 h2)
    · rw [he2, hself, hold b1 h1] at he
      exact absurd he (hpage b1 h1)
    · rw [hold b1 h1, hold b2 h2] at he
      exact hi.pages b1 h1 b2 h2 he
  · simp only
    rw [List.map_congr_left fun b' hb' => by rw [hold b' (hused b' hb')]]
    exact hi.once
  · intro b' hb'
    simp only
    rw [hold b' (hused b' hb')]
    exact hi.coherent b' hb'

/-- `prepare_blocks` puts a block on `free_blocks`, unless memory runs out. -/
theorem Blocks.Inv.prepare (hi : s.Inv) :
    (∃ b t, s.prepareBlocks = .ok t ∧ t.Inv ∧ t.freeBlocks = b :: s.freeBlocks
        ∧ t.usedBlocks = s.usedBlocks ∧ t.card = s.card
        ∧ ∀ b' ∈ s.all, t.block b' = s.block b')
      ∨ s.prepareBlocks = .error (.halt .outOfMemory) ∧ s.Exhausted := by
  unfold Blocks.prepareBlocks
  cases hp : s.world.pageAlloc pageSize with
  | error e =>
    obtain rfl : e = .outOfMemory := by
      unfold Slab.World.pageAlloc at hp
      cases ha : buddyAlloc s.world.heap.buddy pageSize with
      | ok r =>
        rw [ha] at hp
        cases hp
      | error e' =>
        rw [ha] at hp
        cases hp
        exact Slab.buddyAlloc_error (by decide) ha
    exact .inr ⟨rfl, .inl hp⟩
  | ok r =>
    obtain ⟨page, w⟩ := r
    obtain ⟨hstep, hother, hlive⟩ := Slab.World.pageAlloc_step hp
    have hi1 := hi.foreign hstep trivial
    obtain ⟨fl, fc, cp, hw⟩ := hi1.heap
    -- the page is none that was held before
    have hpage : ∀ b' ∈ s.all, (s.block b').page ≠ page := by
      intro b' hb' he
      have hnd := (List.nodup_append.mp hw.nodup).2.1
      rw [show ({ s with world := w } : Blocks).world.other = page :: s.world.other from hother] at hnd
      exact (List.nodup_cons.mp hnd).1 (he ▸ (hi.held b' hb').2.1)
    simp only [Except.mapError, bind, Except.bind]
    rw [show Blocks.blocksPerPage = 1 from rfl]
    unfold Blocks.prepareLoop
    cases hc : w.cacheAlloc s.blockCache with
    | error e =>
      obtain rfl : e = .outOfMemory := by
        unfold Slab.World.cacheAlloc at hc
        cases ha : slabCacheAlloc w.heap s.blockCache with
        | ok r =>
          rw [ha] at hc
          cases hc
        | error e' =>
          rw [ha] at hc
          cases hc
          exact hw.alloc_error hi1.cache ha
      exact .inr ⟨by simp only [Except.mapError, bind, Except.bind], .inr ⟨page, w, hp, hc⟩⟩
    | ok r =>
      obtain ⟨b, w'⟩ := r
      obtain ⟨hstep', hother', hlive'⟩ := Slab.World.cacheAlloc_step hi1.cache hc
      have hi2 := hi1.foreign hstep' trivial
      obtain ⟨fl', fc', cp', hw'⟩ := hi2.heap
      -- the record is no live object of before
      have hnew : b ∉ s.all := by
        intro hb
        have hnd := hw'.liveNodup
        rw [show ({ s with world := w' } : Blocks).world.live = (s.blockCache, b) :: w.live
          from hlive'] at hnd
        refine (List.nodup_cons.mp hnd).1 ?_
        rw [hlive]
        exact (hi.held b hb).1
      have hadd := hi2.add (b := b) (p := page) (by rw [hlive']; exact List.mem_cons_self ..)
        (by rw [hother', hother]; exact List.mem_cons_self ..) hnew hpage
      refine .inl ⟨b, _, ?_, hadd, rfl, rfl, rfl, fun b' hb' =>
        Function.update_of_ne (ne_of_mem_of_not_mem hb' hnew) _ _⟩
      simp only [Except.mapError, bind, Except.bind, Blocks.prepareLoop, Nat.zero_mul, Nat.add_zero]

/-- The allocator does not notice what is written to a buffer. -/
theorem Blocks.Inv.buffer (hi : s.Inv) (hb : b ∈ s.all) (src : Bytes) (a : Nat) :
    ∃ fl fc cp, Slab.Inv
      (s.world.setMem (s.world.heap.mem.copy (s.block b).data src a blockSize)) fl fc cp := by
  obtain ⟨fl, fc, cp, hw⟩ := hi.heap
  obtain ⟨_, hp, hd⟩ := hi.held b hb
  refine ⟨fl, fc, cp, hw.pageBytes hp fun x hx => copy_out _ _ ?_⟩
  have hle := blockSize_le (s.world.heap.buddy.pages (s.block b).page).order
  unfold pageAddress pageSize at *
  omega

/-- A write to one buffer does not change another. -/
theorem Blocks.Inv.buffer_ne (hi : s.Inv) {b' x : Nat} (hb : b ∈ s.all) (hb' : b' ∈ s.all)
    (hne : b' ≠ b) (src : Bytes) (a : Nat) (hx : x < blockSize) :
    s.world.heap.mem.copy (s.block b).data src a blockSize ((s.block b').data + x)
      = s.world.heap.mem ((s.block b').data + x) := by
  have hap := hi.apart hb' hb hne
  unfold Apart at hap
  exact copy_out _ _ (by omega)

/-- A free block is filled from the card and joins the used ones. -/
theorem Blocks.Inv.load (hi : s.Inv) {rest : List Nat} (hf : s.freeBlocks = b :: rest)
    (hidx : index < 2 ^ 16) (hnot : ¬ s.Cached index) :
    Blocks.Inv { s with
      world := s.world.setMem
        (s.world.heap.mem.copy (s.block b).data s.card (index * blockSize) blockSize)
      block := Function.update s.block b { s.block b with index := index }
      usedBlocks := b :: s.usedBlocks
      freeBlocks := rest } := by
  have hall : ∀ b', b' ∈ b :: s.usedBlocks ++ rest ↔ b' ∈ s.all := by
    intro b'
    unfold Blocks.all
    rw [hf]
    exact List.perm_middle.symm.mem_iff
  have hb : b ∈ s.all := (hall b).mp (List.mem_cons_self ..)
  have hnd : (b :: s.usedBlocks ++ rest).Nodup := by
    have := hi.nodup
    unfold Blocks.all at this
    rw [hf] at this
    exact List.nodup_middle.mp this
  have hbu : b ∉ s.usedBlocks := fun h =>
    (List.nodup_cons.mp hnd).1 (List.mem_append_left _ h)
  have hself : Function.update s.block b { s.block b with index := index } b
      = { s.block b with index := index } := Function.update_self ..
  have hold : ∀ b', b' ≠ b → Function.update s.block b { s.block b with index := index } b'
      = s.block b' := fun b' h => Function.update_of_ne h _ _
  -- the index is the one thing about a block that changes
  have hsame : ∀ b', (Function.update s.block b { s.block b with index := index } b').page
        = (s.block b').page
      ∧ (Function.update s.block b { s.block b with index := index } b').data = (s.block b').data := by
    intro b'
    by_cases he : b' = b
    · rw [he, hself]
      exact ⟨rfl, rfl⟩
    · rw [hold b' he]
      exact ⟨rfl, rfl⟩
  refine ⟨hi.buffer hb _ _, hi.cache, hnd, fun b' hb' => ?_, fun b1 h1 b2 h2 he => ?_, ?_, ?_⟩
  · simp only [(hsame b').1, (hsame b').2]
    exact hi.held b' ((hall b').mp hb')
  · simp only [(hsame b1).1, (hsame b2).1] at he
    exact hi.pages b1 ((hall b1).mp h1) b2 ((hall b2).mp h2) he
  · simp only [List.map_cons, hself]
    rw [List.map_congr_left fun b' hb' => by rw [hold b' (ne_of_mem_of_not_mem hb' hbu)]]
    refine List.nodup_cons.mpr ⟨fun hm => hnot ?_, hi.once⟩
    obtain ⟨b', hb', he⟩ := List.mem_map.mp hm
    exact ⟨b', hb', he⟩
  · intro b' hb'
    rcases List.mem_cons.mp hb' with rfl | hb'
    · simp only [hself]
      exact ⟨hidx, fun x hx => copy_in _ _ hx⟩
    · have hne : b' ≠ b := ne_of_mem_of_not_mem hb' hbu
      simp only [hold b' hne]
      obtain ⟨h1, h2⟩ := hi.coherent b' hb'
      refine ⟨h1, fun x hx => ?_⟩
      rw [← h2 x hx]
      exact hi.buffer_ne hb (List.mem_append_left _ hb') hne _ _ hx

/-- A used block is written to, and to the card. -/
theorem Blocks.Inv.store (hi : s.Inv) (hb : b ∈ s.usedBlocks) (data : Bytes) :
    Blocks.Inv { s with
      world := s.world.setMem (s.world.heap.mem.copy (s.block b).data data 0 blockSize)
      card := s.card.copy ((s.block b).index * blockSize)
        (s.world.heap.mem.copy (s.block b).data data 0 blockSize) (s.block b).data blockSize } := by
  have hall : ∀ b' ∈ s.usedBlocks, b' ∈ s.all := fun _ h => List.mem_append_left _ h
  refine ⟨hi.buffer (hall b hb) _ _, hi.cache, hi.nodup, hi.held, hi.pages, hi.once,
    fun b' hb' => ⟨(hi.coherent b' hb').1, fun x hx => ?_⟩⟩
  by_cases he : b' = b
  · subst he
    exact (copy_in _ _ hx).symm
  · -- another block lies elsewhere in memory and on the card
    have hindex : (s.block b').index ≠ (s.block b).index := fun h =>
      he (List.inj_on_of_nodup_map hi.once hb' hb h)
    have hout : (s.block b').index * blockSize + x < (s.block b).index * blockSize
        ∨ (s.block b).index * blockSize + blockSize ≤ (s.block b').index * blockSize + x := by
      unfold blockSize at *
      omega
    have hcard : cardBlocks (s.card.copy ((s.block b).index * blockSize)
        (s.world.heap.mem.copy (s.block b).data data 0 blockSize) (s.block b).data blockSize)
          (s.block b').index x = cardBlocks s.card (s.block b').index x := copy_out _ _ hout
    simp only [hcard]
    rw [← (hi.coherent b' hb').2 x hx]
    exact hi.buffer_ne (hall b hb) (hall b' hb') he _ _ hx

/-- What `get_block` comes to when it returns. -/
structure Blocks.Got (s t : Blocks) (index b : Nat) : Prop where
  inv : t.Inv
  card : t.card = s.card
  used : b ∈ t.usedBlocks
  index : (t.block b).index = index
  /-- No block leaves the cache. -/
  cached : ∀ j, s.Cached j → t.Cached j

/-- The end of `get_block`, with a free block at hand. -/
theorem Blocks.Inv.fetch (hi : s.Inv) {rest : List Nat} (hf : s.freeBlocks = b :: rest)
    (hidx : index < 2 ^ 16) (hnot : ¬ s.Cached index) :
    ∃ t, (match s.takeFree with
      | (.null, _) => .error .broken
      | (.head, _) => .error .wild
      | (.entry block, s) =>
        let s := { s with
          block := Function.update s.block block { s.block block with index := index }
          usedBlocks := block :: s.usedBlocks }
        let m := (mmcRead s.card (index * blockSize) blockSize s.world.heap.mem (s.block block).data).2
        .ok (block, { s with world := s.world.setMem m }) : Except BlockHalt (Nat × Blocks))
        = .ok (b, t) ∧ s.Got t index b := by
  have hself : Function.update s.block b { s.block b with index := index } b
      = { s.block b with index := index } := Function.update_self ..
  unfold Blocks.takeFree
  rw [hf]
  simp only [mmcRead_block, hself]
  refine ⟨_, rfl, hi.load hf hidx hnot, rfl, List.mem_cons_self .., congrArg Block.index hself, ?_⟩
  intro j hj
  obtain ⟨b', hb', he⟩ := hj
  have hne : b' ≠ b := by
    rintro rfl
    have hnd := hi.nodup
    unfold Blocks.all at hnd
    rw [hf] at hnd
    exact (List.nodup_append.mp hnd).2.2 b' hb' b' (List.mem_cons_self ..) rfl
  refine ⟨b', List.mem_cons_of_mem _ hb', ?_⟩
  show (Function.update s.block b _ b').index = j
  rw [Function.update_of_ne hne]
  exact he

/-- **`get_block` returns a used block for the index, or memory runs out.** -/
theorem Blocks.Inv.get (hi : s.Inv) (hidx : index < 2 ^ 16) :
    (∃ b t, s.getBlock index = .ok (b, t) ∧ s.Got t index b)
      ∨ s.getBlock index = .error (.halt .outOfMemory) ∧ ¬ s.Cached index ∧ s.Exhausted := by
  unfold Blocks.getBlock
  cases hfind : s.usedBlocks.find? fun b => (s.block b).index == index with
  | some b =>
    have he := List.find?_some hfind
    exact .inl ⟨b, s, rfl, hi, rfl, List.mem_of_find?_eq_some hfind, by simpa using he,
      fun _ hj => hj⟩
  | none =>
    have hnot : ¬ s.Cached index := by
      rintro ⟨b, hb, he⟩
      have := List.find?_eq_none.mp hfind b hb
      simp [he] at this
    cases hf : s.freeBlocks with
    | cons b rest =>
      obtain ⟨t, ht, hg⟩ := hi.fetch hf hidx hnot
      refine .inl ⟨b, t, ?_, hg⟩
      exact ht
    | nil =>
      rcases hi.prepare with ⟨b, u, hok, hu, huf, huu, huc, hub⟩ | ⟨herr, hex⟩
      · have hcached : ∀ j, u.Cached j ↔ s.Cached j := by
          intro j
          unfold Blocks.Cached
          rw [huu]
          refine exists_congr fun b' => and_congr_right fun hb' => ?_
          rw [hub b' (List.mem_append_left _ hb')]
        obtain ⟨t, ht, hg⟩ := hu.fetch huf hidx fun h => hnot ((hcached index).mp h)
        refine .inl ⟨b, t, ?_, hg.inv, hg.card.trans huc, hg.used, hg.index,
          fun j hj => hg.cached j ((hcached j).mpr hj)⟩
        rw [hok]
        exact ht
      · refine .inr ⟨?_, hnot, hex⟩
        rw [herr]
        rfl

/-! ## Reads and writes -/

/-- **`block_read` returns what the card holds, or memory runs out.** -/
theorem Blocks.Inv.read (hi : s.Inv) (index : Nat) :
    (∃ data t, s.blockRead index = .ok (data, t) ∧ t.Inv ∧ t.card = s.card ∧ t.Cached (index % 2 ^ 16)
        ∧ (∀ j, s.Cached j → t.Cached j)
        ∧ ∀ x, x < blockSize → data x = cardBlocks s.card (index % 2 ^ 16) x)
      ∨ s.blockRead index = .error (.halt .outOfMemory) ∧ ¬ s.Cached (index % 2 ^ 16)
        ∧ s.Exhausted := by
  unfold Blocks.blockRead
  rcases hi.get (Nat.mod_lt index (by decide)) with ⟨b, t, hok, hg⟩ | ⟨herr, h⟩
  · rw [hok]
    refine .inl ⟨_, t, rfl, hg.inv, hg.card, ⟨b, hg.used, hg.index⟩, hg.cached, fun x hx => ?_⟩
    have hin := copy_in (a := 0) (b := (t.block b).data) (fun _ => 0) t.world.heap.mem hx
    rw [Nat.zero_add] at hin
    rw [hin, (hg.inv.coherent b hg.used).2 x hx, hg.index, hg.card]
  · rw [herr]
    exact .inr ⟨rfl, h⟩

/-- **`block_write` changes one block of the card, or memory runs out.** -/
theorem Blocks.Inv.write (hi : s.Inv) (index : Nat) (data : Bytes) :
    (∃ t, s.blockWrite index data = .ok t ∧ t.Inv ∧ ∀ d, CardHolds s.card d →
        CardHolds t.card (Cyanurus.blockWrite d index data))
      ∨ s.blockWrite index data = .error (.halt .outOfMemory) ∧ ¬ s.Cached (index % 2 ^ 16)
        ∧ s.Exhausted := by
  unfold Blocks.blockWrite
  rcases hi.get (Nat.mod_lt index (by decide)) with ⟨b, t, hok, hg⟩ | ⟨herr, h⟩
  · rw [hok]
    simp only [mmcWrite_block]
    have hst := hg.inv.store hg.used data
    rw [hg.index] at hst
    refine .inl ⟨_, rfl, hst, fun d hd j hj x hx => ?_⟩
    unfold Cyanurus.blockWrite cardBlocks
    by_cases he : j = index % 2 ^ 16
    · subst he
      simp only
      rw [Function.update_self, copy_in _ _ hx, copy_in _ _ hx, Nat.zero_add]
    · rw [Function.update_of_ne he, ← hd j hj x hx, hg.card]
      refine copy_out _ _ ?_
      unfold blockSize at *
      omega
  · rw [herr]
    exact .inr ⟨rfl, h⟩

/-! ## Whole runs -/

/-- **One step of the cache is a step of the array.** -/
theorem blockStep_simulates {a : BlockAct} {d : Disk} (hi : s.Inv) (hd : CardHolds s.card d)
    (h : BlockStep s a s') : ∃ d', DiskStep d a d' ∧ s'.Inv ∧ CardHolds s'.card d' := by
  cases h with
  | @read _ index data hr =>
    rcases hi.read index with ⟨data', t, hok, ht, hc, _, _, hdata⟩ | ⟨herr, _⟩
    · obtain ⟨rfl, rfl⟩ := Prod.mk.inj (Except.ok.inj (hr.symm.trans hok))
      refine ⟨d, .read fun x hx => ?_, ht, by rw [hc]; exact hd⟩
      rw [hdata x hx]
      exact hd _ (Nat.mod_lt index (by decide)) x hx
    · rw [hr] at herr
      cases herr
  | @write _ index data hr =>
    rcases hi.write index data with ⟨t, hok, ht, hcard⟩ | ⟨herr, _⟩
    · obtain rfl := Except.ok.inj (hr.symm.trans hok)
      exact ⟨_, .write, ht, hcard d hd⟩
    · rw [hr] at herr
      cases herr
  | other hf hs => exact ⟨d, .other, hi.foreign hs hf, hd⟩

/-- After `block_init` nothing is cached. -/
theorem blockInit_inv {w : Slab.World} {card : Bytes} {fl : Nat → List Nat} {fc cp : List Nat}
    (hw : Slab.Inv w fl fc cp) (h : blockInit w card = .ok s) :
    s.Inv ∧ s.usedBlocks = [] ∧ s.card = card := by
  obtain ⟨⟨r, t⟩, hc, h⟩ := bind_eq_ok h
  -- a cache for records of 20 bytes is always accepted
  obtain ⟨c, rfl, -⟩ := Slab.slabCacheCreate_small (by decide) (by decide) (by decide) hc
  obtain ⟨fc', cp', hw'⟩ := hw.create (by decide) (by decide) hc
  rw [← Except.ok.inj h]
  refine ⟨⟨⟨fl, fc', cp', hw'⟩, List.mem_cons_self .., List.nodup_nil, ?_, ?_, List.nodup_nil, ?_⟩, rfl,
    rfl⟩
  all_goals
    intro b hb
    exact absurd hb List.not_mem_nil

/-- What holds of the cache in every state. -/
structure Blocks.Sound (s : Blocks) : Prop where
  /-- No two entries of `used_blocks` have the same index. -/
  once : (s.usedBlocks.map fun b => (s.block b).index).Nodup
  /-- No two cached blocks share a byte of their buffers. -/
  apart : s.all.Pairwise fun b b' => Apart (s.block b).data blockSize (s.block b').data blockSize
  /-- A read returns the block on the card, or there is no memory for a block that is not cached. -/
  reads : ∀ index,
    (∃ data t, s.blockRead index = .ok (data, t) ∧ ∀ x, x < blockSize →
        data x = cardBlocks s.card (index % 2 ^ 16) x)
      ∨ s.blockRead index = .error (.halt .outOfMemory) ∧ ¬ s.Cached (index % 2 ^ 16) ∧ s.Exhausted
  /-- So does a write. -/
  writes : ∀ index data, (∃ t, s.blockWrite index data = .ok t)
    ∨ s.blockWrite index data = .error (.halt .outOfMemory) ∧ ¬ s.Cached (index % 2 ^ 16)
      ∧ s.Exhausted

theorem Blocks.Inv.sound (hi : s.Inv) : s.Sound := by
  refine ⟨hi.once, ?_, fun index => ?_, fun index data => ?_⟩
  · exact hi.nodup.imp_of_mem fun hb hb' hne => hi.apart hb hb' hne
  · rcases hi.read index with ⟨data, t, hok, _, _, _, _, hdata⟩ | h
    · exact .inl ⟨data, t, hok, hdata⟩
    · exact .inr h
  · rcases hi.write index data with ⟨t, hok, _⟩ | h
    · exact .inl ⟨t, hok⟩
    · exact .inr h

/--
**The block cache is transparent.** Whatever else goes on in memory, a sequence of
reads and writes is one of an array of blocks with the content the card had, and the
card holds that array after every call.
-/
theorem block_cache_transparent {m : Bytes} {caches : Nat → SlabCache} {pre : List Slab.Act}
    {w : Slab.World} {card : Bytes} {s₀ : Blocks} {as : List BlockAct}
    (hw : Run Slab.Step (Slab.start m caches) pre w) (h0 : blockInit w card = .ok s₀)
    (hr : Run BlockStep s₀ as s) :
    (∃ d, Run DiskStep (cardBlocks card) as d ∧ CardHolds s.card d) ∧ s.Sound := by
  obtain ⟨fl, fc, cp, hinv⟩ := Slab.inv_run hw
  obtain ⟨hi, _, hc⟩ := blockInit_inv hinv h0
  have hstart : CardHolds s₀.card (cardBlocks card) := by
    rw [hc]
    exact fun _ _ _ _ => rfl
  obtain ⟨d, hrun, hi', hd⟩ := hr.simulates (R := fun s d => Blocks.Inv s ∧ CardHolds s.card d) ⟨hi, hstart⟩ fun s a s' d hR hs => blockStep_simulates hR.1 hR.2 hs
  exact ⟨⟨d, hrun, hd⟩, hi'.sound⟩

/-- A block is written and read back, on a card full of sevens. -/
theorem block_cache_transparent_write_read : ∃ s₀ s data,
    blockInit (Slab.start (fun _ => 0) fun _ => {}) (fun _ => 7) = .ok s₀
      ∧ Run BlockStep s₀ [.write 5 fun _ => 1, .read 5 data] s
      ∧ (∃ d, Run DiskStep (cardBlocks fun _ => 7) [.write 5 fun _ => 1, .read 5 data] d
        ∧ CardHolds s.card d) ∧ s.Sound := by
  have hok : ((blockInit (Slab.start (fun _ => 0) fun _ => {}) fun _ => 7).toOption.map fun s =>
      ((s.blockWrite 5 fun _ => 1).toOption.map fun t => (t.blockRead 5).isOk)) = some (some true) := by
    decide +kernel
  cases h0 : blockInit (Slab.start (fun _ => 0) fun _ => {}) fun _ => 7 with
  | error e =>
    rw [h0] at hok
    cases hok
  | ok s₀ =>
    rw [h0] at hok
    cases h1 : s₀.blockWrite 5 fun _ => 1 with
    | error e =>
      simp [Except.toOption, h1] at hok
    | ok s₁ =>
      cases h2 : s₁.blockRead 5 with
      | error e => simp [Except.toOption, Except.isOk, Except.toBool, h1, h2] at hok
      | ok r =>
        have hrun := (Run.nil.snoc (BlockStep.write h1)).snoc (BlockStep.read h2)
        exact ⟨s₀, r.2, r.1, rfl, hrun, block_cache_transparent .nil h0 hrun⟩

/-! ## More blocks than pages -/

/-- The buffers are distinct pages of the pool. -/
theorem Blocks.Inv.length_le (hi : s.Inv) : s.usedBlocks.length ≤ pageNum := by
  obtain ⟨fl, fc, cp, hw⟩ := hi.heap
  obtain ⟨ord, free, wf⟩ := hw.pool
  have hall : ∀ b ∈ s.usedBlocks, b ∈ s.all := fun _ h => List.mem_append_left _ h
  have hnd : (s.usedBlocks.map fun b => (s.block b).page).Nodup :=
    (List.nodup_append.mp hi.nodup).1.map_on fun b hb b' hb' he =>
      hi.pages b (hall b hb) b' (hall b' hb') he
  rw [← List.length_map (fun b => (s.block b).page)]
  refine Slab.length_le_pageNum hnd fun p hp => ?_
  obtain ⟨b, hb, rfl⟩ := List.mem_map.mp hp
  have hfirst := hw.allocated _ (Slab.mem_pages_other (hi.held b (hall b hb)).2.1)
  have := Slab.head_inside wf hfirst
  have hpos := Nat.two_pow_pos (s.world.heap.buddy.pages (s.block b).page).order
  omega

/-- As many blocks are cached as there are indices that are. -/
theorem Blocks.length_ge {n : Nat} (h : ∀ j, j < n → s.Cached j) : n ≤ s.usedBlocks.length := by
  have hsub : List.range n ⊆ s.usedBlocks.map fun b => (s.block b).index := by
    intro j hj
    obtain ⟨b, hb, he⟩ := h j (List.mem_range.mp hj)
    exact List.mem_map.mpr ⟨b, hb, he⟩
  simpa using (List.nodup_range.subperm hsub).length_le

/-- Reading the blocks 0, 1, 2, … one after another: if every read returns, all are cached. -/
theorem reads_cached {s₀ : Blocks} (hi : s₀.Inv)
    (hall : ∀ as s, Run BlockStep s₀ as s → ∀ index, ∃ data t, s.blockRead index = .ok (data, t)) :
    ∀ n, n ≤ 2 ^ 16 → ∃ as s, Run BlockStep s₀ as s ∧ s.Inv ∧ ∀ j, j < n → s.Cached j := by
  intro n
  induction n with
  | zero => exact fun _ => ⟨[], s₀, .nil, hi, fun j hj => absurd hj (Nat.not_lt_zero j)⟩
  | succ n ih =>
    intro hn
    obtain ⟨as, s, hrun, hs, hc⟩ := ih (by omega)
    obtain ⟨data, t, hread⟩ := hall as s hrun n
    rcases hs.read n with ⟨data', t', hok, ht, _, hnew, hkeep, _⟩ | ⟨herr, _⟩
    · obtain ⟨rfl, rfl⟩ := Prod.mk.inj (Except.ok.inj (hread.symm.trans hok))
      refine ⟨_, t, hrun.snoc (.read hread), ht, fun j hj => ?_⟩
      rw [Nat.mod_eq_of_lt (by omega)] at hnew
      rcases Nat.lt_succ_iff_lt_or_eq.mp hj with hj | rfl
      · exact hkeep j (hc j hj)
      · exact hnew
    · rw [hread] at herr
      cases herr

/-- After at most 16384 different blocks a read does not return any more. -/
theorem block_cache_exhausts : ¬ ∀ (m : Bytes) (caches : Nat → SlabCache) (card : Bytes) (s₀ : Blocks),
    blockInit (Slab.start m caches) card = .ok s₀ → ∀ as s, Run BlockStep s₀ as s → ∀ index,
      ∃ data t, s.blockRead index = .ok (data, t) ∧ ∀ x, x < blockSize →
        data x = cardBlocks s.card (index % 2 ^ 16) x := by
  intro hall
  have hok : (blockInit (Slab.start (fun _ => 0) fun _ => {}) fun _ => 0).isOk = true := by decide
  cases h0 : blockInit (Slab.start (fun _ => 0) fun _ => {}) fun _ => 0 with
  | error e =>
    rw [h0] at hok
    cases hok
  | ok s₀ =>
    obtain ⟨hi, _⟩ := blockInit_inv (Slab.inv_start _ _ fun _ => []) h0
    obtain ⟨as, s, _, hs, hc⟩ := reads_cached hi (fun as s hr index => by
      obtain ⟨data, t, h, _⟩ := hall _ _ _ _ h0 as s hr index
      exact ⟨data, t, h⟩) 16385 (by decide)
    have h1 := hs.length_le
    have h2 := Blocks.length_ge hc
    unfold pageNum at h1
    omega

end Cyanurus
