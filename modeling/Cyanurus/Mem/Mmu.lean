import Cyanurus.Mem.SlabFrame

/-!
# Page tables

`src/kernel/mmu.c`. A mapping belongs to a pid: a level-1 table of 4096 words, one per
megabyte, whose entries lead to level-2 tables of 256 words, one per page. The tables lie in
pages of the pool, next to the pages they map; all blocks taken for a mapping are linked
through `page->next`, which is how `mmu_destroy` finds them again.

The kernel runs in a window that every mapping shows one to one, so its own reads and
writes are reads and writes of memory; what a table makes of an address is `translate`.

The records `struct mapping` are kept at their addresses, and `mappings` as the list of
these. `owned` is not part of the program: it notes which blocks were taken for a mapping.
-/

namespace Cyanurus

open Bytes

def l1EntryNum : Nat := 4096
def l2EntryNum : Nat := 256

/-- `L1_SIZE` -/
def l1Size : Nat := l1EntryNum * 4

/-- `L2_SIZE` -/
def l2Size : Nat := l2EntryNum * 4

/-- `GET_L1_INDEX` -/
def getL1Index (addr : Nat) : Nat := addr >>> 20

/-- `GET_L2_INDEX` -/
def getL2Index (addr : Nat) : Nat := (addr &&& 0xff000) >>> 12

/-- `GET_PAGE_SIZE`: the sum wraps around at 32 bits. -/
def getPageSize (size : Nat) : Nat := ((size + pageSize - 1) % 2 ^ 32) >>> 12

def flPageTable : Nat := 0x1
def slShortDescriptor : Nat := 0x2
def apPrivilegedAccess : Nat := 0x10
def apFullAccess : Nat := 0x30

def virtVectorsAddr : Nat := 0xffff0000

/-- `&vectors_end - &vectors_start`: fifteen words. -/
def vectorsSize : Nat := 60

/-- `struct mapping`, apart from its link. -/
structure Mapping where
  pid : Int := 0
  /-- `page_head` -/
  pageHead : Option Nat := none
  /-- The address of the level-1 table. -/
  address : Nat := 0
deriving DecidableEq, Repr

/-- The variables of `mmu.c`, the memory, and the register that selects a table. -/
structure Mmu where
  world : Slab.World
  /-- `mapping_cache` -/
  mappingCache : Nat
  /-- The mapping at an address. -/
  mapping : Nat → Mapping
  mappings : List Nat
  /-- `current_pid` of `mmu_set_ttb` -/
  currentPid : Int
  /-- TTBR0 -/
  ttbr : Nat
  /-- `&vectors_start` -/
  vectorsStart : Nat
  /-- The blocks taken for a mapping, the last one first. -/
  owned : Nat → List Nat

namespace Mmu

def mem (s : Mmu) : Bytes := s.world.heap.mem

def setMem (s : Mmu) (m : Bytes) : Mmu := { s with world := s.world.setMem m }

/-- `add_page` -/
def addPage (s : Mmu) (mapping page : Nat) : Mmu :=
  let head := (s.mapping mapping).pageHead
  { s with
    world := s.world.setNext page head
    mapping := Function.update s.mapping mapping { s.mapping mapping with pageHead := some page }
    owned := Function.update s.owned mapping (page :: s.owned mapping) }

/-- `buddy_alloc` and `add_page`, with which `mmu_create_pl1` and its like begin. -/
def takePage (s : Mmu) (mapping size : Nat) : Except Halt (Nat × Mmu) := do
  let (page, w) ← s.world.pageAlloc size
  .ok (page, { s with world := w }.addPage mapping page)

/-- `mmu_create_pl1` and `mmu_create_pl2`: a cleared table of `size` bytes. -/
def createTable (s : Mmu) (mapping size : Nat) : Except Halt (Nat × Mmu) := do
  let (page, s) ← s.takePage mapping size
  .ok (pageAddress page, s.setMem (s.mem.fill (pageAddress page) size 0))

def mmuCreatePl1 (s : Mmu) (mapping : Nat) : Except Halt (Nat × Mmu) := s.createTable mapping l1Size

def mmuCreatePl2 (s : Mmu) (mapping : Nat) : Except Halt (Nat × Mmu) := s.createTable mapping l2Size

def mmuCreatePage (s : Mmu) (mapping : Nat) : Except Halt (Nat × Mmu) := do
  let (page, s) ← s.takePage mapping pageSize
  .ok (pageAddress page, s)

def mmuCreateAndFillPl2 (s : Mmu) (mapping l1i : Nat) : Except Halt (Nat × Mmu) := do
  let entry := (s.mapping mapping).address + 4 * l1i
  let s ← if s.mem.load 4 entry &&& flPageTable = 0 then do
      let (pl2, s) ← s.mmuCreatePl2 mapping
      .ok (s.setMem (s.mem.store 4 entry (0xfffffc00 &&& pl2 ||| flPageTable)))
    else .ok s
  .ok (0xfffffc00 &&& s.mem.load 4 entry, s)

/-- The loop of `mmu_create_mapping`, from entry `i` on. -/
def mappingLoop (mapping pl2 access : Nat) : Nat → Nat → Mmu → Except Halt Mmu
  | 0, _, s => .ok s
  | n + 1, i, s => do
      let (page, s) ← s.mmuCreatePage mapping
      mappingLoop mapping pl2 access n (i + 1)
        (s.setMem (s.mem.store 4 (pl2 + 4 * i) (page ||| slShortDescriptor ||| access)))

def mmuCreateMapping (s : Mmu) (mapping addr size : Nat) (isPrivileged : Bool) :
    Except Halt (Int × Mmu) :=
  if l2EntryNum < getL2Index addr + getPageSize size then .ok (-1, s)
  else do
    let (pl2, s) ← s.mmuCreateAndFillPl2 mapping (getL1Index addr)
    let access := if isPrivileged then apPrivilegedAccess else apFullAccess
    let s ← mappingLoop mapping pl2 access (getPageSize size) (getL2Index addr) s
    .ok (0, s)

/-- The loop of `mmu_create_straight_mapping`, after `n` rounds. -/
def straightLoop (m : Bytes) (pl2 l2i addr : Nat) : Nat → Bytes
  | 0 => m
  | n + 1 =>
    let newAddr := (addr &&& 0xfffff000) + pageSize * n
    (straightLoop m pl2 l2i addr n).store 4 (pl2 + 4 * (l2i + n))
      (newAddr ||| slShortDescriptor ||| apPrivilegedAccess)

def mmuCreateStraightMapping (s : Mmu) (mapping addr size : Nat) : Except Halt (Int × Mmu) :=
  if l2EntryNum < getL2Index addr + getPageSize size then .ok (-1, s)
  else do
    let (pl2, s) ← s.mmuCreateAndFillPl2 mapping (getL1Index addr)
    .ok (0, s.setMem (straightLoop s.mem pl2 (getL2Index addr) addr (getPageSize size)))

def mmuCreateVectorsMapping (s : Mmu) (mapping : Nat) : Except Halt Mmu := do
  let (pl2, s) ← s.mmuCreateAndFillPl2 mapping (getL1Index virtVectorsAddr)
  let (page, s) ← s.mmuCreatePage mapping
  let m := s.mem.copy page s.mem s.vectorsStart vectorsSize
  .ok (s.setMem (m.store 4 (pl2 + 4 * getL2Index virtVectorsAddr)
    (page ||| slShortDescriptor ||| apPrivilegedAccess)))

/-- The loop of `mmu_create_kernel_mappings`, from round `i` on. -/
def windowLoop (mapping : Nat) : Nat → Nat → Mmu → Except Halt Mmu
  | 0, _, s => .ok s
  | n + 1, i, s => do
      let (_, s) ← s.mmuCreateStraightMapping mapping (0x60000000 + 0x100000 * i) 0x100000
      windowLoop mapping n (i + 1) s

def mmuCreateKernelMappings (s : Mmu) (mapping : Nat) : Except Halt Mmu := do
  -- exception vectors
  let s ← s.mmuCreateVectorsMapping mapping
  -- the kernel
  let s ← windowLoop mapping 0x90 0 s
  -- motherboard peripherals
  let (_, s) ← s.mmuCreateStraightMapping mapping 0x10000000 0x20000
  -- the snoop control unit
  let (_, s) ← s.mmuCreateStraightMapping mapping 0x1e000000 0x2000
  .ok s

/-- The mapping of a pid. -/
def find (s : Mmu) (pid : Int) : Option Nat :=
  s.mappings.find? fun mapping => (s.mapping mapping).pid == pid

def mmuMappingFetch (s : Mmu) (pid : Int) : Except Halt (Nat × Mmu) :=
  match s.find pid with
  | some mapping => .ok (mapping, s)
  | none => do
      let (mapping, w) ← s.world.cacheAlloc s.mappingCache
      let s := { s with
        world := w
        mapping := Function.update s.mapping mapping { pid := pid }
        owned := Function.update s.owned mapping [] }
      let (address, s) ← s.mmuCreatePl1 mapping
      let s := { s with
        mapping := Function.update s.mapping mapping { s.mapping mapping with address := address } }
      let s ← s.mmuCreateKernelMappings mapping
      .ok (mapping, { s with mappings := mapping :: s.mappings })

def mmuSetTtb (s : Mmu) (pid : Int) : Except Halt (Int × Mmu) := do
  let (mapping, s) ← s.mmuMappingFetch pid
  let addr := (s.mapping mapping).address
  .ok (s.currentPid, { s with ttbr := addr &&& 0xffffc000, currentPid := pid })

def mmuAlloc (s : Mmu) (pid : Int) (addr size : Nat) : Except Halt (Int × Mmu) := do
  let (mapping, s) ← s.mmuMappingFetch pid
  s.mmuCreateMapping mapping addr size false

/-- The loop of `release_pages`. -/
def releaseLoop : Nat → Option Nat → Mmu → Except Halt Mmu
  | _, none, s => .ok s
  | 0, some _, _ => .error .stuck
  | fuel + 1, some page, s => do
      let next := s.world.heap.buddy.next page
      let w ← (s.world.setNext page none).pageFree page
      releaseLoop fuel next { s with world := w }

/-- `release_pages` -/
def releasePages (s : Mmu) (mapping : Nat) : Except Halt Mmu :=
  releaseLoop pageNum (s.mapping mapping).pageHead s

def mmuDestroy (s : Mmu) (pid : Int) : Except Halt (Int × Mmu) :=
  match s.find pid with
  -- the search ends at the head of the list, which is taken for a mapping
  | none => .error .fault
  | some mapping => do
      let (_, s) ← s.mmuSetTtb 0
      let s := { s with mappings := s.mappings.erase mapping }
      let s ← s.releasePages mapping
      let w ← s.world.cacheFree s.mappingCache mapping
      .ok (0, { s with world := w })

end Mmu

/-- `sizeof(struct mapping)` -/
def mappingBytes : Nat := 20

/-- `mmu_init` -/
def mmuInit (w : Slab.World) (vectorsStart : Nat) : Except Halt Mmu := do
  let (cache, t) ← slabCacheCreate w.heap [109, 97, 112, 112, 105, 110, 103] mappingBytes
  let w := { w with heap := t, created := cache.toList ++ w.created }
  let (_, s) ← Mmu.mmuSetTtb ⟨w, ptrWord cache, fun _ => {}, [], 0, 0, vectorsStart, fun _ => []⟩ 0
  .ok s

/-! ## What the tables say -/

/-- Who may use a page. -/
inductive Access where
  | nobody
  | privileged
  /-- User mode may read only. -/
  | readOnly
  | full
deriving DecidableEq, Repr

/-- The two access bits of a level-2 entry. -/
def entryAccess (word : Nat) : Access :=
  match word / 16 % 4 with
  | 0 => .nobody
  | 1 => .privileged
  | 2 => .readOnly
  | _ => .full

/-- The level-2 entry for an address, in the tables at `ttb`. -/
def lookupEntry (m : Bytes) (ttb va : Nat) : Option Nat :=
  let l1 := m.load 4 (ttb + 4 * (va / 2 ^ 20))
  if l1 % 4 = flPageTable then some (m.load 4 (l1 / 1024 * 1024 + 4 * (va / 2 ^ 12 % 256))) else none

/-- The walk of the memory-management unit: the address in memory and who may use it. -/
def translate (m : Bytes) (ttb va : Nat) : Option (Nat × Access) :=
  match lookupEntry m ttb va with
  | none => none
  | some l2 => if l2 / 2 % 2 = 1 then some (l2 / 4096 * 4096 + va % 4096, entryAccess l2) else none

end Cyanurus
