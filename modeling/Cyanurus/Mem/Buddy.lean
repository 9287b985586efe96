import Cyanurus.Lib.Chain

/-!
# The page allocator

`src/kernel/buddy.c` over the page table of `src/kernel/page.h`. A `struct page *`
is the index of its entry in `pages`, so `page->index` is the pointer itself; the
two flag bits are two fields. A free list is the index of its first page, and the
pages on it are linked through `next`.

`system_halt` does not return: a call that reaches it ends in `Halt`. The two
loops that follow pointers (`buddy_list_remove` and the recursion of
`buddy_free`) count their steps and end in `Halt.stuck` when they run out.
-/

namespace Cyanurus

def pageSize : Nat := 0x1000
def pageNum : Nat := 0x4000
def pageMaxOrder : Nat := 10
def pageMaxDepth : Nat := pageMaxOrder + 1

/-- The ways a call does not return. -/
inductive Halt where
  /-- "out of memory" -/
  | outOfMemory
  /-- "requested page is too large" -/
  | tooLarge
  /-- "broken page" -/
  | brokenPage
  /-- "broken slab" -/
  | brokenSlab
  /-- A loop or recursion that does not come to an end. -/
  | stuck
  /-- A null or dead pointer is followed, or a buffer overrun. -/
  | fault
  /-- `SYSTEM_BUG_ON` -/
  | bug
  /-- "unknown flags", "unknown file type" -/
  | unknown
deriving DecidableEq, Repr

/-- Two calls in a row that return both return. -/
theorem bind_eq_ok {α β : Type} {x : Except Halt α} {f : α → Except Halt β} {b : β}
    (h : x >>= f = .ok b) : ∃ a, x = .ok a ∧ f a = .ok b := by
  cases x with
  | error e => exact absurd h (by simp [bind, Except.bind])
  | ok a => exact ⟨a, rfl, h⟩

theorem map_eq_ok {α β : Type} {x : Except Halt α} {f : α → β} {b : β} (h : x.map f = .ok b) :
    ∃ a, x = .ok a ∧ f a = b := by
  cases x with
  | error e => exact absurd h (by simp [Except.map])
  | ok a => exact ⟨a, rfl, Except.ok.inj h⟩

/-- `struct page`. -/
structure Page where
  /-- `PF_FREE_LIST` -/
  freeList : Bool := false
  /-- `PF_FIRST_PAGE` -/
  firstPage : Bool := false
  order : Nat := 0
  next : Option Nat := none
deriving DecidableEq, Repr

/-- `pages` and `free_lists`. -/
structure Buddy where
  pages : Nat → Page
  freeLists : Nat → Option Nat

namespace Buddy

/-- Assign to fields of one page. -/
def setPage (b : Buddy) (p : Nat) (f : Page → Page) : Buddy :=
  { b with pages := Function.update b.pages p (f (b.pages p)) }

/-- Assign to `free_lists[i].head`. -/
def setHead (b : Buddy) (i : Nat) (h : Option Nat) : Buddy :=
  { b with freeLists := Function.update b.freeLists i h }

/-- The links of the page table. -/
def next (b : Buddy) (p : Nat) : Option Nat := (b.pages p).next

@[simp] theorem setPage_self (b : Buddy) (p : Nat) (f : Page → Page) :
    (b.setPage p f).pages p = f (b.pages p) := by simp [setPage]

theorem setPage_ne (b : Buddy) {p q : Nat} (f : Page → Page) (h : q ≠ p) :
    (b.setPage p f).pages q = b.pages q := by simp [setPage, h]

@[simp] theorem setPage_freeLists (b : Buddy) (p : Nat) (f : Page → Page) :
    (b.setPage p f).freeLists = b.freeLists := rfl

@[simp] theorem setHead_pages (b : Buddy) (i : Nat) (h : Option Nat) :
    (b.setHead i h).pages = b.pages := rfl

@[simp] theorem setHead_self (b : Buddy) (i : Nat) (h : Option Nat) :
    (b.setHead i h).freeLists i = h := by simp [setHead]

theorem setHead_ne (b : Buddy) {i j : Nat} (h : Option Nat) (hj : j ≠ i) :
    (b.setHead i h).freeLists j = b.freeLists j := by simp [setHead, hj]

end Buddy

/-! ## The operations -/

/-- `buddy_find_buddy_index` -/
def buddyFindBuddyIndex (b : Buddy) (page : Nat) : Nat :=
  if (page >>> (b.pages page).order) &&& 0x1 ≠ 0 then
    page - (1 <<< (b.pages page).order)
  else
    page + (1 <<< (b.pages page).order)

/-- `buddy_list_pop` -/
def buddyListPop (b : Buddy) (list : Nat) : Option Nat × Buddy :=
  match b.freeLists list with
  | none => (none, b)
  | some page =>
    (some page, (b.setHead list (b.pages page).next).setPage page
      fun q => { q with next := none, freeList := false })

/-- `buddy_list_push` -/
def buddyListPush (b : Buddy) (list page : Nat) : Buddy :=
  let b := match b.freeLists list with
    | some head => b.setPage page fun q => { q with next := some head }
    | none => b.setPage page fun q => { q with next := none }
  (b.setHead list (some page)).setPage page fun q => { q with freeList := true }

/-- `buddy_list_remove` -/
def buddyListRemove (b : Buddy) (list index : Nat) : Except Halt (Option Nat × Buddy) :=
  match findLink b.next index (pageNum + 1) none (b.freeLists list) with
  | .stuck => .error .stuck
  | .absent => .ok (none, b)
  | .after prev =>
    -- `*pp = page->next`
    let b := match prev with
      | none => b.setHead list (b.pages index).next
      | some q => b.setPage q fun r => { r with next := (b.pages index).next }
    .ok (some index, b.setPage index fun q => { q with next := none, freeList := false })

/-- `buddy_is_free_buddy` -/
def buddyIsFreeBuddy (b : Buddy) (page buddy : Nat) : Bool :=
  (b.pages buddy).freeList && (b.pages buddy).order == (b.pages page).order

/-- `buddy_init` -/
def buddyInit : Buddy where
  pages := fun i =>
    if i < pageNum ∧ i % (1 <<< pageMaxOrder) = 0 then
      { freeList := true, order := pageMaxOrder,
        next := if i / (1 <<< pageMaxOrder) < pageNum / (1 <<< pageMaxOrder) - 1 then
          some (i + (1 <<< pageMaxOrder)) else none }
    else {}
  freeLists := fun k => if k = pageMaxOrder then some 0 else none

/-- The first loop of `buddy_pull_block`: pop from the next larger list that has a block. -/
def pullPop (b : Buddy) (i : Nat) : Nat → Option (Nat × Nat × Buddy)
  | 0 => none
  | n + 1 =>
    match buddyListPop b i with
    | (some page, b') => some (i, page, b')
    | (none, b') => pullPop b' (i + 1) n

/-- The second loop: cut the block down, keeping the upper half each time. -/
def pullCut (b : Buddy) (start page : Nat) : Nat → Nat × Buddy
  | 0 => (page, b)
  | n + 1 =>
    let i := start + n
    let b := b.setPage page fun q => { q with order := i }
    let b := b.setHead i (some page)
    let b := b.setPage page fun q => { q with freeList := true }
    pullCut b start (page + (1 <<< i)) n

/-- `buddy_pull_block` -/
def buddyPullBlock (b : Buddy) (start : Nat) : Except Halt (Nat × Buddy) :=
  match pullPop b (start + 1) (pageMaxDepth - (start + 1)) with
  | none => .error .outOfMemory
  | some (i, page, b) =>
    let (page, b) := pullCut b start page (i - start)
    .ok (page, b.setPage page fun q => { q with order := start })

/-- The order `buddy_alloc` looks for: the first whose blocks hold `size` bytes. -/
def sizeOrder (size i : Nat) : Nat → Option Nat
  | 0 => none
  | n + 1 => if size ≤ (1 <<< i) * pageSize then some i else sizeOrder size (i + 1) n

/-- `buddy_alloc` -/
def buddyAlloc (b : Buddy) (size : Nat) : Except Halt (Nat × Buddy) :=
  match sizeOrder size 0 pageMaxDepth with
  | none => .error .tooLarge
  | some i =>
    match buddyListPop b i with
    | (some page, b) => .ok (page, b.setPage page fun q => { q with firstPage := true })
    | (none, b) => do
        let (page, b) ← buddyPullBlock b i
        .ok (page, b.setPage page fun q => { q with firstPage := true })

/-- `buddy_free`, whose tail call is one more round. -/
def buddyFreeLoop : Nat → Buddy → Nat → Except Halt Buddy
  | 0, _, _ => .error .stuck
  | fuel + 1, b, page =>
    let order := (b.pages page).order
    let bi := buddyFindBuddyIndex b page
    let b := b.setPage page fun q => { q with firstPage := false }
    if order = pageMaxOrder ∨ buddyIsFreeBuddy b page bi = false then
      .ok (buddyListPush b order page)
    else
      let b := b.setPage page fun q => { q with freeList := false, next := none }
      match buddyListRemove b order bi with
      | .error e => .error e
      | .ok (none, _) => .error .brokenPage
      | .ok (some p, b) =>
        -- the lower of the two halves carries on, the upper one becomes interior
        if (bi >>> order) &&& 0x1 ≠ 0 then
          let b := b.setPage p fun q => { q with order := 0 }
          buddyFreeLoop fuel (b.setPage page fun q => { q with order := q.order + 1 }) page
        else
          let b := b.setPage page fun q => { q with order := 0 }
          buddyFreeLoop fuel (b.setPage p fun q => { q with order := q.order + 1 }) p

/-- `buddy_free` -/
def buddyFree (b : Buddy) (page : Nat) : Except Halt Buddy := buddyFreeLoop pageMaxDepth b page

end Cyanurus
