import Mathlib.Data.Finset.Card
import Mathlib.Data.Finset.Image
import Cyanurus.Mem.SlabFrame

/-!
# When a request for pages is met

The page allocator merges blocks that are free whenever it can, so a run of four pages
none of which is allocated (a *quad*) is part of one free block. As long as all
allocated blocks lie inside quads and there are fewer of them than quads, a request
for up to four pages is met (`Room.ok`).

`Costs b k out r` says that a call takes at most `k` such blocks: it fails for want of
memory only, and only when there is no room for `k` blocks.
-/

namespace Cyanurus.Buddy

open Dyadic

variable {b b' : Buddy} {ord : Nat → Option Nat} {free : Nat → Prop} {n p size : Nat}

/-- The heads of the allocated blocks. -/
def heads (b : Buddy) : Finset Nat :=
  (Finset.range pageNum).filter fun h => (b.pages h).firstPage = true

/-- There is room for `n` more blocks of up to four pages. -/
structure Room (b : Buddy) (n : Nat) : Prop where
  /-- Every allocated block lies inside a quad. -/
  small : ∀ {h}, (b.pages h).firstPage = true → (b.pages h).order ≤ 2
  count : b.heads.card + n ≤ pageNum / 4

theorem Room.mono {k : Nat} (hr : b.Room n) (h : k ≤ n) : b.Room k :=
  ⟨hr.small, by have := hr.count; omega⟩

/-- A block that is not allocated is free. -/
theorem Wf.free_of_not_first (w : Wf b ord free none) {h k : Nat} (hk : ord h = some k)
    (hf : (b.pages h).firstPage ≠ true) : free h := by
  by_contra hn
  exact hf (w.firstFlag.mpr ⟨⟨k, hk⟩, hn, by simp⟩)

/-- Some quad has no allocated page. -/
theorem Room.quad (w : Wf b ord free none) (hr : b.Room 1) :
    ∃ q, 4 * q + 4 ≤ pageNum ∧ ∀ {i h k}, 4 * q ≤ i → i < 4 * q + 4 → ord h = some k →
      h ≤ i → i < h + 2 ^ k → free h := by
  have hcard : (b.heads.image (· / 4)).card < (Finset.range (pageNum / 4)).card := by
    have := Finset.card_image_le (s := b.heads) (f := (· / 4))
    have := hr.count
    rw [Finset.card_range]
    omega
  obtain ⟨q, hq, hnot⟩ := Finset.exists_mem_notMem_of_card_lt_card hcard
  have hq := Finset.mem_range.mp hq
  refine ⟨q, by unfold pageNum at *; omega, fun {i h k} h1 h2 hk h3 h4 => ?_⟩
  refine w.free_of_not_first hk fun hf => hnot (Finset.mem_image.mpr ⟨h, ?_, ?_⟩)
  · exact Finset.mem_filter.mpr ⟨Finset.mem_range.mpr (by omega), hf⟩
  · -- an aligned block of at most four pages does not cross a quad
    have hle := hr.small hf
    rw [w.order hk (by simp)] at hle
    obtain ⟨c, rfl⟩ := w.tiling.aligned hk
    obtain rfl | rfl | rfl : k = 0 ∨ k = 1 ∨ k = 2 := by omega
    all_goals
      omega

/-- **A free quad is part of a free block of at least four pages.** -/
theorem Room.block (w : Wf b ord free none) (hr : b.Room 1) :
    ∃ h k, free h ∧ ord h = some k ∧ 2 ≤ k := by
  obtain ⟨q, hq, hfree⟩ := hr.quad w
  obtain ⟨h, k, hf, hk, hle, -⟩ := w.tiling.one_block w.apart (j := 2) (by decide)
    (Nat.dvd_mul_right 4 q) hq fun hk h1 h2 h3 h4 => hfree h3 h4 hk h1 h2
  exact ⟨h, k, hf, hk, hle⟩

/-! ## Requests -/

/-- The first loop of `buddy_pull_block` finds nothing only when all the lists are empty. -/
theorem pullPop_none (w : Wf b ord free none) : ∀ {n i : Nat}, pullPop b i n = none →
    ∀ {k}, i ≤ k → k < i + n → ∀ {x}, free x → ord x ≠ some k := by
  intro n
  induction n with
  | zero =>
    intro i _ k h1 h2
    omega
  | succ n ih =>
    intro i h k h1 h2 x hx
    rw [pullPop] at h
    split at h
    · cases h
    · rename_i b1 hpop
      obtain ⟨rfl, hno⟩ := pop_none w hpop
      rcases Nat.eq_or_lt_of_le h1 with rfl | hlt
      · exact hno x hx
      · exact ih h hlt (by omega) hx

/-- A request that fits into a free block is met. -/
theorem Wf.alloc_ok (w : Wf b ord free none) {h k : Nat} (hf : free h) (hk : ord h = some k)
    (hs : size ≤ (1 <<< k) * pageSize) : ∃ p b', buddyAlloc b size = .ok (p, b') := by
  have htop := w.tiling.top hk
  obtain ⟨i, hi, hle⟩ : ∃ i, sizeOrder size 0 pageMaxDepth = some i ∧ i ≤ 0 + k :=
    Slab.sizeOrder_some (m := 10) (by rwa [Nat.zero_add]) htop
  unfold buddyAlloc
  rw [hi]
  simp only
  split
  · exact ⟨_, _, rfl⟩
  · rename_i b1 hpop
    obtain ⟨rfl, hno⟩ := pop_none w hpop
    cases hpull : pullPop b1 (i + 1) (pageMaxDepth - (i + 1)) with
    | none =>
      have hne : k ≠ i := fun he => hno h hf (he ▸ hk)
      refine absurd hk (pullPop_none w hpull (by omega) ?_ hf)
      unfold pageMaxDepth
      omega
    | some r =>
      simp only [buddyPullBlock, hpull]
      exact ⟨_, _, rfl⟩

/-- **With room for a block, a request for up to four pages is met.** -/
theorem Room.ok (w : Wf b ord free none) (hr : b.Room 1) (hs : size ≤ 4 * pageSize) :
    ∃ p b', buddyAlloc b size = .ok (p, b') := by
  obtain ⟨h, k, hf, hk, hle⟩ := hr.block w
  refine w.alloc_ok hf hk (hs.trans (Nat.mul_le_mul_right _ ?_))
  rw [Nat.one_shiftLeft]
  exact Nat.pow_le_pow_right Nat.two_pos hle

/-- The block handed out has the order that was looked for. -/
theorem buddyAlloc_order (w : Wf b ord free none) {k : Nat}
    (hk : sizeOrder size 0 pageMaxDepth = some k) (h : buddyAlloc b size = .ok (p, b')) :
    (b'.pages p).order = k := by
  unfold buddyAlloc at h
  rw [hk] at h
  simp only at h
  split at h
  · rename_i page b1 hpop
    cases h
    rw [setPage_self]
    exact (w.pop hpop).2.2.2.1
  · unfold buddyPullBlock at h
    split at h
    · cases h
    · cases h
      rw [setPage_self, setPage_self]

theorem Room.alloc (w : Wf b ord free none) (hr : b.Room (n + 1)) (hs : size ≤ 4 * pageSize)
    (h : buddyAlloc b size = .ok (p, b')) : b'.Room n := by
  obtain ⟨_, _, _, _, hp, _, hkeep, hback⟩ := buddyAlloc_wf w h
  obtain ⟨k, hk, hk2⟩ : ∃ k, sizeOrder size 0 pageMaxDepth = some k ∧ k ≤ 0 + 2 :=
    Slab.sizeOrder_some (m := 10) hs (by decide)
  refine ⟨fun {x} hx => ?_, ?_⟩
  · by_cases he : x = p
    · rw [he, buddyAlloc_order w hk h]
      exact hk2
    · have hx := hback x he hx
      rw [hkeep x hx]
      exact hr.small hx
  · have hsub : b'.heads ⊆ insert p b.heads := by
      intro x hx
      obtain ⟨h1, h2⟩ := Finset.mem_filter.mp hx
      by_cases he : x = p
      · exact he ▸ Finset.mem_insert_self ..
      · exact Finset.mem_insert_of_mem (Finset.mem_filter.mpr ⟨h1, hback x he h2⟩)
    have h1 := Finset.card_le_card hsub
    have h2 := Finset.card_insert_le p b.heads
    have h3 := hr.count
    omega

/-- Anything that allocates no block leaves as much room as before. -/
theorem Room.of_sub (hr : b.Room n) (h : ∀ x, (b'.pages x).firstPage = true →
    (b.pages x).firstPage = true ∧ (b'.pages x).order = (b.pages x).order) : b'.Room n := by
  refine ⟨fun {x} hx => ?_, ?_⟩
  · rw [(h x hx).2]
    exact hr.small (h x hx).1
  · have hsub : b'.heads ⊆ b.heads := fun x hx =>
      Finset.mem_filter.mpr ⟨(Finset.mem_filter.mp hx).1, (h x (Finset.mem_filter.mp hx).2).1⟩
    have h1 := Finset.card_le_card hsub
    have h3 := hr.count
    omega

theorem Room.give (w : Wf b ord free none) (hr : b.Room n) (hp : (b.pages p).firstPage = true)
    (h : buddyFree b p = .ok b') : b'.Room n := by
  obtain ⟨b1, _, _, hok, _, hkeep, hback⟩ := buddyFree_wf w hp
  obtain rfl : b' = b1 := by rw [h] at hok; exact Except.ok.inj hok
  refine hr.of_sub fun x hx => ?_
  obtain ⟨hne, hx⟩ := hback x hx
  exact ⟨hx, by rw [hkeep x hne hx]⟩

theorem Room.setNext (hr : b.Room n) (x : Option Nat) :
    (b.setPage p fun q => { q with next := x }).Room n := by
  refine hr.of_sub fun y hy => ?_
  by_cases he : y = p
  · subst he
    rw [setPage_self] at hy ⊢
    exact ⟨hy, rfl⟩
  · rw [setPage_ne _ _ he] at hy ⊢
    exact ⟨hy, rfl⟩

/-- At the start every quad is free. -/
theorem room_init : buddyInit.Room (pageNum / 4) := by
  have hnone : ∀ h, (buddyInit.pages h).firstPage = false := by
    intro h
    unfold buddyInit
    dsimp only
    split <;> rfl
  refine ⟨fun {h} hh => ?_, ?_⟩
  · rw [hnone h] at hh
    cases hh
  · have : buddyInit.heads = ∅ := Finset.filter_false_of_mem fun h _ => by simp [hnone h]
    rw [this, Finset.card_empty, Nat.zero_add]

/-! ## Calls that take blocks -/

/-- The call takes at most `k` blocks; `out` is the page table it leaves. -/
structure Costs {β : Type} (b : Buddy) (k : Nat) (out : β → Buddy) (r : Except Halt β) : Prop where
  /-- It fails for want of memory, when there is no room for `k` blocks. -/
  error : ∀ {e}, r = .error e → e = .outOfMemory ∧ ¬ b.Room k
  /-- What it leaves is at least the room there was without the `k` blocks. -/
  room : ∀ {x}, r = .ok x → ∀ {n}, b.Room (k + n) → (out x).Room n

namespace Costs

variable {β γ : Type} {k j : Nat} {out : β → Buddy} {out' : γ → Buddy} {r : Except Halt β}

theorem returns (hc : Costs b k out r) (hr : b.Room (k + n)) : ∃ x, r = .ok x ∧ (out x).Room n := by
  cases h : r with
  | error e => exact absurd (hr.mono (Nat.le_add_right k n)) (hc.error h).2
  | ok x => exact ⟨x, rfl, hc.room h hr⟩

theorem mono (hc : Costs b k out r) (hle : k ≤ j) : Costs b j out r :=
  ⟨fun h => ⟨(hc.error h).1, fun hr => (hc.error h).2 (hr.mono hle)⟩,
    fun h _ hr => hc.room h (hr.mono (by omega))⟩

/-- A call that only gives blocks back. -/
theorem nothing {x : β} (h : ∀ {n}, b.Room n → (out x).Room n) : Costs b 0 out (.ok x) := by
  refine ⟨fun he => ?_, fun he n hr => ?_⟩
  · cases he
  · cases he
    exact h (by rwa [Nat.zero_add] at hr)

/-- Two calls in a row. -/
theorem bind {f : β → Except Halt γ} (hc : Costs b k out r)
    (hf : ∀ x, r = .ok x → Costs (out x) j out' (f x)) : Costs b (k + j) out' (r >>= f) := by
  cases h : r with
  | error e =>
    refine ⟨fun he => ?_, fun he => ?_⟩
    · obtain rfl := Except.error.inj he
      exact ⟨(hc.error h).1, fun hr => (hc.error h).2 (hr.mono (by omega))⟩
    · cases he
  | ok x =>
    have hf := hf x h
    refine ⟨fun he => ⟨(hf.error he).1, fun hr => (hf.error he).2 (hc.room h hr)⟩, ?_⟩
    intro y he n hr
    exact hf.room he (hc.room h (by rwa [Nat.add_assoc] at hr))

end Costs

theorem buddyAlloc_costs (w : Wf b ord free none) (hs : size ≤ 4 * pageSize) :
    Costs b 1 Prod.snd (buddyAlloc b size) := by
  refine ⟨fun {e} h => ⟨Slab.buddyAlloc_error (by unfold pageSize at hs; omega) h, fun hr => ?_⟩,
    fun {x} h n hr => ?_⟩
  · obtain ⟨p, b', hok⟩ := hr.ok w hs
    rw [h] at hok
    cases hok
  · rw [Nat.add_comm] at hr
    exact hr.alloc w hs h

end Cyanurus.Buddy

namespace Cyanurus.Slab

open Buddy

variable {s w : World} {fl : Nat → List Nat} {fc cp : List Nat} {c p : Nat}

/-- The page table of what a call returns. -/
def World.table (r : Nat × World) : Buddy := r.2.heap.buddy

theorem Inv.pageAlloc_costs (hi : Inv s fl fc cp) {size : Nat} (hs : size ≤ 4 * pageSize) :
    Costs s.heap.buddy 1 World.table (s.pageAlloc size) := by
  obtain ⟨ord, free, wf⟩ := hi.pool
  exact (buddyAlloc_costs wf hs).bind (j := 0) fun x _ => .nothing id

theorem Inv.pageFree_room (hi : Inv s fl fc cp) (hp : p ∈ s.other) (h : s.pageFree p = .ok w) {n : Nat}
    (hr : s.heap.buddy.Room n) : w.heap.buddy.Room n := by
  obtain ⟨ord, free, wf⟩ := hi.pool
  obtain ⟨b, hb, h⟩ := bind_eq_ok h
  cases h
  exact hr.give wf (hi.allocated p (mem_pages_other hp)) hb

theorem slabTake_buddy (u : Heap) (c a : Nat) : (slabTake u c a).2.buddy = u.buddy := by
  unfold slabTake
  dsimp only
  split
  · rfl
  · rfl

/-- `slab_cache_alloc` takes at most the one block of a new slab. -/
theorem Inv.cacheAlloc_costs (hi : Inv s fl fc cp)
    (hs : (s.heap.caches c).slabSize ≤ 4 * pageSize) :
    Costs s.heap.buddy 1 World.table (s.cacheAlloc c) := by
  obtain ⟨ord, free, wf⟩ := hi.pool
  have halloc : Costs s.heap.buddy 1 (fun r : Nat × Heap => r.2.buddy) (slabCacheAlloc s.heap c) := by
    cases hpart : (s.heap.caches c).slabsPartial with
    | some a =>
      rw [slabCacheAlloc_some hpart]
      refine Costs.mono (k := 0) (.nothing fun hr => ?_) (Nat.zero_le 1)
      rwa [slabTake_buddy]
    | none =>
      rw [slabCacheAlloc_none hpart]
      refine (buddyAlloc_costs wf hs).bind (j := 0) fun x _ => .nothing fun hr => ?_
      rw [slabTake_buddy]
      exact hr
  exact halloc.bind (j := 0) fun x _ => .nothing id

/-- `slab_cache_create` takes at most one page of caches. -/
theorem Inv.create_costs (hi : Inv s fl fc cp) (name : List UInt8) (size : Nat) :
    Costs s.heap.buddy 1 (fun r : Option Nat × Heap => r.2.buddy) (slabCacheCreate s.heap name size) := by
  obtain ⟨ord, free, wf⟩ := hi.pool
  have hnew : Costs s.heap.buddy 1 (fun r : Nat × Heap => r.2.buddy) (slabCacheNew s.heap) := by
    unfold slabCacheNew
    cases s.heap.freeCacheHead with
    | some c => exact Costs.mono (k := 0) (.nothing id) (Nat.zero_le 1)
    | none =>
      cases ha : buddyAlloc s.heap.buddy pageSize with
      | error e =>
        refine ⟨fun {e'} he => ?_, fun {x} he => ?_⟩
        · obtain rfl := Except.error.inj he
          exact (buddyAlloc_costs wf (by decide)).error ha
        · cases he
      | ok r =>
        refine ⟨fun {e'} he => ?_, fun {x} he n hr => ?_⟩
        · cases he
        · cases he
          exact (buddyAlloc_costs wf (by decide)).room ha hr
  unfold slabCacheCreate
  split
  · exact Costs.mono (k := 0) (.nothing id) (Nat.zero_le 1)
  split
  · exact Costs.mono (k := 0) (.nothing id) (Nat.zero_le 1)
  refine hnew.bind (j := 0) fun ⟨c, t⟩ _ => ?_
  -- what follows assigns to the record of the cache
  dsimp only
  split
  all_goals
    split
    · exact .nothing id
    · exact .nothing id

theorem Inv.cacheFree_room (hi : Inv s fl fc cp) {obj : Nat} (hl : (c, obj) ∈ s.live)
    (h : s.cacheFree c obj = .ok w) : w.heap.buddy = s.heap.buddy := by
  obtain ⟨t, ht, h⟩ := bind_eq_ok h
  obtain ⟨t', _, hok, _, hb, _⟩ := hi.free hl
  obtain rfl : t = t' := by rw [ht] at hok; exact Except.ok.inj hok
  rw [← Except.ok.inj h]
  exact hb

end Cyanurus.Slab
