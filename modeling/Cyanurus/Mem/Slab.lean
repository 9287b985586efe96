import Cyanurus.Lib.Bytes
import Cyanurus.Mem.Page

/-!
# The slab allocator

`src/kernel/slab.c`. A slab is a block of pages that starts with a header of three
words (`next`, `free`, `object`), followed by an array of free indices with one
entry more than there are objects, followed by the objects. All of it lies in byte
memory, next to what the owners of the objects write there.

The caches themselves are records of 52 bytes in pages of their own, which nothing
else writes; they are kept as records, at their addresses. A null pointer in a
record is `none`, in memory it is the word 0.
-/

namespace Cyanurus

def maxSlabName : Nat := 32
def slabFreeEnd : Nat := 0xffffffff

/-- `sizeof(struct slab_header)` -/
def slabHeaderBytes : Nat := 12

/-- `SLAB_HEADER_SIZE` -/
def slabHeaderSize : Nat := slabHeaderBytes + 4

/-- `sizeof(struct slab_cache)` -/
def slabCacheBytes : Nat := 52

/-- `struct slab_cache`. -/
structure SlabCache where
  name : List UInt8 := []
  next : Option Nat := none
  slabSize : Nat := 0
  objectSize : Nat := 0
  slabsFull : Option Nat := none
  slabsPartial : Option Nat := none

/-- The state of the allocator: pages, memory, caches and `free_cache_head`. -/
structure Heap where
  buddy : Buddy
  mem : Bytes
  caches : Nat → SlabCache
  freeCacheHead : Option Nat

namespace Heap

/-- Assign to fields of one cache. -/
def setCache (s : Heap) (c : Nat) (f : SlabCache → SlabCache) : Heap :=
  { s with caches := Function.update s.caches c (f (s.caches c)) }

@[simp] theorem setCache_self (s : Heap) (c : Nat) (f : SlabCache → SlabCache) :
    (s.setCache c f).caches c = f (s.caches c) := by simp [setCache]

theorem setCache_ne (s : Heap) {c d : Nat} (f : SlabCache → SlabCache) (h : d ≠ c) :
    (s.setCache c f).caches d = s.caches d := by simp [setCache, h]

end Heap

/-- The word that holds a pointer. -/
def ptrWord (p : Option Nat) : Nat := p.getD 0

/-- The pointer a word holds. -/
def wordPtr (w : Nat) : Option Nat := if w = 0 then none else some w

/-- `header->next` -/
def slabNext (m : Bytes) (header : Nat) : Option Nat := wordPtr (m.load 4 header)

/-- The address of `free_list[i]`. -/
def freeEntry (header i : Nat) : Nat := header + slabHeaderBytes + 4 * i

/-- `slab_max_object_num` -/
def slabMaxObjectNum (cache : SlabCache) : Nat :=
  (cache.slabSize - slabHeaderSize) / (cache.objectSize + 4)

/-- `slab_size_limits[i]`, as `slab_cache_init` sets it. -/
def slabSizeLimits (i : Nat) : Nat :=
  pageSize * (1 <<< i) / 8 - (slabHeaderSize / 8 + 1) - 4

/-! ## Slabs -/

/-- The loop of `slab_new`: every index leads to the one after it. -/
def linkFree (m : Bytes) (header : Nat) : Nat → Bytes
  | 0 => m
  | n + 1 => (linkFree m header n).store 4 (freeEntry header n) (n + 1)

/-- `slab_new` -/
def slabNew (s : Heap) (cache : SlabCache) : Except Halt (Nat × Heap) := do
  let num := slabMaxObjectNum cache
  let (page, b) ← buddyAlloc s.buddy cache.slabSize
  let header := pageAddress page
  let m := s.mem.fill header slabHeaderBytes 0
  let m := m.store 4 (header + 4) (freeEntry header 0)
  let m := m.store 4 (header + 8) (freeEntry header (num + 1))
  let m := linkFree m header num
  let m := m.store 4 (freeEntry header num) slabFreeEnd
  .ok (header, { s with buddy := b, mem := m })

/-! ## Caches -/

/-- A page of caches as `slab_cache_new` leaves it: cleared, and linked one to the next. -/
def cachePage (caches : Nat → SlabCache) (base : Nat) : Nat → SlabCache := fun x =>
  if base ≤ x ∧ x < base + pageSize then
    if (x - base) % slabCacheBytes = 0 ∧
        (x - base) / slabCacheBytes < pageSize / slabCacheBytes - 1 then
      { next := some (x + slabCacheBytes) }
    else {}
  else caches x

/-- `slab_cache_new` -/
def slabCacheNew (s : Heap) : Except Halt (Nat × Heap) := do
  let (cache, s) ← match s.freeCacheHead with
    | some cache => .ok (cache, s)
    | none => do
        let (page, b) ← buddyAlloc s.buddy pageSize
        let base := pageAddress page
        .ok (base, { s with buddy := b, caches := cachePage s.caches base })
  let s := { s with freeCacheHead := (s.caches cache).next }
  .ok (cache, s.setCache cache fun c => { c with next := none })

/-- The loop of `slab_cache_create`: the first order whose slabs take objects of this size. -/
def slabOrder (objectSize i : Nat) : Nat → Option Nat
  | 0 => none
  | n + 1 => if objectSize ≤ slabSizeLimits i then some i else slabOrder objectSize (i + 1) n

/-- `slab_cache_create` -/
def slabCacheCreate (s : Heap) (name : List UInt8) (size : Nat) :
    Except Halt (Option Nat × Heap) :=
  if size = 0 then .ok (none, s)
  else if name.length ≥ maxSlabName then .ok (none, s)
  else do
    let (cache, s) ← slabCacheNew s
    -- `(size + 0x3) & ~0x3`
    let s := s.setCache cache fun c =>
      { c with name := name, objectSize := (size + 3) % 2 ^ 32 / 4 * 4 }
    let s := match slabOrder (s.caches cache).objectSize 0 pageMaxDepth with
      | some i => s.setCache cache fun c => { c with slabSize := pageSize * (1 <<< i) }
      | none => s
    if (s.caches cache).slabSize = 0 then .ok (none, s) else .ok (some cache, s)

/-! ## Objects -/

/-- `slab_cache_alloc` from the point where a slab with a free object is at hand. -/
def slabTake (s : Heap) (cache header : Nat) : Nat × Heap :=
  let index := ptrIndex (s.mem.load 4 (header + 4)) (freeEntry header 0) 4
  let nextIndex := s.mem.load 4 (s.mem.load 4 (header + 4))
  let m := s.mem.store 4 (freeEntry header index) slabFreeEnd
  let m := m.store 4 (header + 4) (freeEntry header nextIndex)
  let s := { s with mem := m }
  let s :=
    if m.load 4 (m.load 4 (header + 4)) = slabFreeEnd then
      -- the last free object is gone: the slab moves to `slabs_full`
      { s with mem := m.store 4 header (ptrWord (s.caches cache).slabsFull) }.setCache cache
        fun c => { c with slabsPartial := slabNext m header, slabsFull := some header }
    else s
  ((s.mem.load 4 (header + 8) + (s.caches cache).objectSize * index) % 2 ^ 32, s)

/-- `slab_cache_alloc` -/
def slabCacheAlloc (s : Heap) (cache : Nat) : Except Halt (Nat × Heap) := do
  let (header, s) ← match (s.caches cache).slabsPartial with
    | some header => .ok (header, s)
    | none => do
        let (header, s) ← slabNew s (s.caches cache)
        .ok (header, s.setCache cache fun c => { c with slabsPartial := some header })
  .ok (slabTake s cache header)

/-- `*hp = h->next`, then put the slab first on `slabs_partial`. -/
def slabToPartial (s : Heap) (cache header : Nat) (prev : Option Nat) : Heap :=
  let s := match prev with
    | none => s.setCache cache fun c => { c with slabsFull := slabNext s.mem header }
    | some q => { s with mem := s.mem.store 4 q (s.mem.load 4 header) }
  { s with mem := s.mem.store 4 header (ptrWord (s.caches cache).slabsPartial) }.setCache cache
    fun c => { c with slabsPartial := some header }

/-- `slab_cache_free` -/
def slabCacheFree (s : Heap) (cache obj : Nat) : Except Halt Heap :=
  match (pageFindByAddress obj).bind (pageFindHead s.buddy) with
  | none => .error .fault
  | some page =>
    let header := pageAddress page
    let index := (ptrDiff obj (s.mem.load 4 (header + 8)) % 2 ^ 32).toNat
      / (s.caches cache).objectSize
    let nextIndex := ptrIndex (s.mem.load 4 (header + 4)) (freeEntry header 0) 4
    let m := s.mem.store 4 (freeEntry header index) nextIndex
    let m := m.store 4 (header + 4) (freeEntry header index)
    let s := { s with mem := m }
    if m.load 4 (freeEntry header nextIndex) = slabFreeEnd then
      -- the slab was full: find it on `slabs_full`
      match findLink (slabNext m) header (pageNum + 1) none (s.caches cache).slabsFull with
      | .stuck => .error .stuck
      | .absent => .error .brokenSlab
      | .after prev => .ok (slabToPartial s cache header prev)
    else .ok s

end Cyanurus
