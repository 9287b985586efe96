import Cyanurus.Mem.Room
import Cyanurus.Mem.Space

/-!
# The invariant of the page tables

`G` gives the space that the tables of a mapping spell out, and `ms` the mappings in use,
among them the one that `mmu_mapping_fetch` is making. Every block of a mapping is on its
page list, once, and belongs to no other mapping.

A call for one mapping takes blocks that nobody holds and writes to blocks of that mapping
only (`Mmu.Own`); this is why it cannot be noticed through any other.
-/

namespace Cyanurus

open Bytes Slab

/-- What holds of one mapping, whose tables spell out `sp`. -/
structure Mmu.Held (s : Mmu) (mp : Nat) (sp : Space) : Prop where
  live : (s.mappingCache, mp) ∈ s.world.live
  /-- The page list is the list of its blocks. -/
  chain : Chain s.world.heap.buddy.next (s.mapping mp).pageHead (s.owned mp)
  nodup : (s.owned mp).Nodup
  other : ∀ {p}, p ∈ s.owned mp → p ∈ s.world.other
  space : sp.Ok (s.owned mp)
  address : (s.mapping mp).address = pageAddress sp.root
  /-- The block of the level-1 table is large enough. -/
  size : l1Size ≤ 2 ^ (s.world.heap.buddy.pages sp.root).order * pageSize
  tables : Shows s.mem sp

/-- The invariant. -/
structure Mmu.Inv (s : Mmu) (ms : List Nat) (G : Nat → Space) : Prop where
  heap : ∃ fl fc cp, Slab.Inv s.world fl fc cp
  cache : s.mappingCache ∈ s.world.created
  slab : (s.world.heap.caches s.mappingCache).slabSize ≤ 4 * pageSize
  nodup : ms.Nodup
  pids : ∀ {mp mq}, mp ∈ ms → mq ∈ ms → (s.mapping mp).pid = (s.mapping mq).pid → mp = mq
  /-- No block belongs to two mappings. -/
  disjoint : ∀ {mp mq p}, mp ∈ ms → mq ∈ ms → p ∈ s.owned mp → p ∈ s.owned mq → mp = mq
  held : ∀ {mp}, mp ∈ ms → s.Held mp (G mp)

namespace Mmu

variable {s s' : Mmu} {ms : List Nat} {G : Nat → Space} {sp : Space} {mp mq p q size : Nat} {w : World}
  {s'' : Mmu} {a x n t i addr : Nat} {m : Bytes} {b : Buddy} {sp' sp'' : Space} {r pid : Int}

/-- The block of pages of a table holds the table. -/
theorem pageSize_le (k : Nat) : pageSize ≤ 2 ^ k * pageSize :=
  Nat.le_mul_of_pos_left _ (Nat.two_pow_pos k)

/-- A mapping whose record and blocks stay as they are stays as it is. -/
theorem Held.keep (h : s.Held mp sp) (hc : s'.mappingCache = s.mappingCache)
    (hm : s'.mapping mp = s.mapping mp) (ho : s'.owned mp = s.owned mp)
    (hl : (s.mappingCache, mp) ∈ s'.world.live)
    (hk : ∀ {p}, p ∈ s.owned mp → p ∈ s'.world.other ∧ PageKept s.world.heap s'.world.heap p) :
    s'.Held mp sp := by
  have hroot := hk h.space.root_mem
  refine ⟨by rw [hc]; exact hl, ?_, by rw [ho]; exact h.nodup, fun hp => (hk (ho ▸ hp)).1,
    by rw [ho]; exact h.space, by rw [hm]; exact h.address, ?_, ?_⟩
  · rw [hm, ho]
    refine h.chain.congr fun p hp => ?_
    unfold Buddy.next
    rw [(hk hp).2.page]
  · rw [hroot.2.page]
    exact h.size
  · refine h.tables.congr (hroot.2.bytes.sub (Nat.le_refl _) ?_) fun {i t} ht => ?_
    · have := h.size
      omega
    · have htable := hk (h.space.table_mem ht)
      refine htable.2.bytes.sub (Nat.le_refl _) ?_
      have := pageSize_le (s.world.heap.buddy.pages t).order
      have : l2Size ≤ pageSize := by decide
      omega

/-- The act is not about a record or a block of a mapping. -/
def Foreign (s : Mmu) (ms : List Nat) : Slab.Act → Prop
  | .free c obj => c = s.mappingCache → obj ∉ ms
  | .pageFree p => ∀ mp ∈ ms, p ∉ s.owned mp
  | .pageWrite p => ∀ mp ∈ ms, p ∉ s.owned mp
  | _ => True

/-- **What others do to memory does not reach the tables.** -/
theorem Inv.foreign (hi : s.Inv ms G) {a : Slab.Act} (h : Slab.Step s.world a w) (hf : s.Foreign ms a) :
    Inv { s with world := w } ms G := by
  obtain ⟨fl, fc, cp, hw⟩ := hi.heap
  refine ⟨Slab.inv_step hw h, h.created_kept hi.cache, ?_, hi.nodup, hi.pids, hi.disjoint,
    fun {mp} hmp => ?_⟩
  · rw [(h.sizes_kept hw hi.cache).2]
    exact hi.slab
  · have hh := hi.held hmp
    refine hh.keep rfl rfl rfl (h.live_kept hh.live fun he => ?_) fun {p} hp => ?_
    · subst he
      exact hf rfl hmp
    · refine h.page_kept hw (hh.other hp) (fun he => ?_) fun he => ?_
      · subst he
        exact hf mp hmp hp
      · subst he
        exact hf mp hmp hp

/-! ## Calls for one mapping -/

/-- The address is not in the block at `q`. -/
def OffBlock (b : Buddy) (q a : Nat) : Prop :=
  a < pageAddress q ∨ pageAddress q + 2 ^ (b.pages q).order * pageSize ≤ a

/--
A call that takes blocks for someone who has `l` before and `l'` after it, and writes to
these only.
-/
structure Takes (w : World) (l : List Nat) (w' : World) (l' : List Nat) : Prop where
  more : ∀ {q}, q ∈ l → q ∈ l'
  /-- Nobody held what is new. -/
  fresh : ∀ {q}, q ∈ l' → q ∈ l ∨ q ∉ w.other
  other : ∀ {q}, q ∈ w'.other ↔ q ∈ w.other ∨ q ∈ l' ∧ q ∉ l
  kept : ∀ {q}, q ∈ w.other → q ∉ l → PageKept w.heap w'.heap q

theorem Takes.refl (w : World) (l : List Nat) : Takes w l w l :=
  ⟨id, Or.inl, ⟨Or.inl, fun h => h.elim id fun h => absurd h.1 h.2⟩, fun _ _ => ⟨rfl, .refl _ _ _⟩⟩

theorem Takes.trans {w' w'' : World} {l l' l'' : List Nat} (h : Takes w l w' l')
    (h' : Takes w' l' w'' l'') : Takes w l w'' l'' := by
  refine ⟨fun hq => h'.more (h.more hq), fun {q} hq => ?_, fun {q} => ⟨fun hq => ?_, fun hq => ?_⟩,
    fun {q} hq hn => ?_⟩
  · rcases h'.fresh hq with hq | hq
    · exact h.fresh hq
    · exact Or.inr fun hq' => hq (h.other.mpr (Or.inl hq'))
  · rcases h'.other.mp hq with hq | ⟨hq, hn⟩
    · rcases h.other.mp hq with hq | ⟨hq, hn⟩
      · exact Or.inl hq
      · exact Or.inr ⟨h'.more hq, hn⟩
    · exact Or.inr ⟨hq, fun hq' => hn (h.more hq')⟩
  · rcases hq with hq | ⟨hq, hn⟩
    · exact h'.other.mpr (Or.inl (h.other.mpr (Or.inl hq)))
    · by_cases hq' : q ∈ l'
      · exact h'.other.mpr (Or.inl (h.other.mpr (Or.inr ⟨hq', hn⟩)))
      · exact h'.other.mpr (Or.inr ⟨hq, hq'⟩)
  · refine (h.kept hq hn).trans (h'.kept (h.other.mpr (Or.inl hq)) fun hq' => ?_)
    exact (h.fresh hq').elim hn fun hf => hf hq

/-- A call for the mapping `mp` that takes blocks for it and writes to its blocks only. -/
structure Own (mp : Nat) (s s' : Mmu) : Prop
    extends Takes s.world (s.owned mp) s'.world (s'.owned mp) where
  rest : s' = { s with world := s'.world, mapping := s'.mapping, owned := s'.owned }
  live : s'.world.live = s.world.live
  mapping : ∀ {mq}, mq ≠ mp → s'.mapping mq = s.mapping mq
  record : (s'.mapping mp).pid = (s.mapping mp).pid ∧ (s'.mapping mp).address = (s.mapping mp).address
  owned : ∀ {mq}, mq ≠ mp → s'.owned mq = s.owned mq

theorem Own.cache (h : Own mp s s') : s'.mappingCache = s.mappingCache := by rw [h.rest]

theorem Own.mappings (h : Own mp s s') : s'.mappings = s.mappings := by rw [h.rest]

theorem Own.refl (mp : Nat) (s : Mmu) : Own mp s s :=
  ⟨.refl _ _, rfl, rfl, fun _ => rfl, ⟨rfl, rfl⟩, fun _ => rfl⟩

theorem Own.trans (h : Own mp s s') (h' : Own mp s' s'') : Own mp s s'' := by
  refine ⟨h.toTakes.trans h'.toTakes, ?_, h'.live.trans h.live,
    fun hne => (h'.mapping hne).trans (h.mapping hne),
    ⟨h'.record.1.trans h.record.1, h'.record.2.trans h.record.2⟩,
    fun hne => (h'.owned hne).trans (h.owned hne)⟩
  rw [h'.rest, h.rest]

/-- A block of the mapping and a block of someone else do not overlap. -/
theorem Inv.off_block (hi : s.Inv ms G) (hp : p ∈ s.world.other) (hq : q ∈ s.world.other) (hne : p ≠ q)
    (h1 : pageAddress p ≤ a)
    (h2 : a < pageAddress p + 2 ^ (s.world.heap.buddy.pages p).order * pageSize) :
    OffBlock s.world.heap.buddy q a := by
  obtain ⟨fl, fc, cp, hw⟩ := hi.heap
  have hap := hw.page_apart hp hq hne
  unfold Apart at hap
  unfold OffBlock
  omega

/-- A write to blocks of one mapping. -/
theorem Inv.write_own (hi : s.Inv ms G) (hsub : ∀ {q}, q ∈ s.owned mp → q ∈ s.world.other)
    (hm : ∀ a, (∀ q ∈ s.owned mp, OffBlock s.world.heap.buddy q a) → m a = s.mem a) :
    Own mp s (s.setMem m) := by
  refine ⟨⟨id, Or.inl, (Takes.refl _ _).other, fun {q} hq hn => ⟨rfl, fun a h1 h2 => hm a fun r hr => ?_⟩⟩, rfl, rfl,
    fun _ => rfl, ⟨rfl, rfl⟩, fun _ => rfl⟩
  exact hi.off_block hq (hsub hr) (fun he => hn (he ▸ hr)) h1 h2

/-- It leaves the other mappings alone. -/
theorem Inv.setMem (hi : s.Inv ms G) (G' : Nat → Space)
    (hsub : ∀ {q}, q ∈ s.owned mp → q ∈ s.world.other)
    (hm : ∀ a, (∀ q ∈ s.owned mp, OffBlock s.world.heap.buddy q a) → m a = s.mem a)
    (hdis : ∀ {mq q}, mq ∈ ms → mq ≠ mp → q ∈ s.owned mq → q ∉ s.owned mp)
    (hsame : ∀ {mq}, mq ∈ ms → mq ≠ mp → G' mq = G mq)
    (hmp : mp ∈ ms → (s.setMem m).Held mp (G' mp)) : (s.setMem m).Inv ms G' := by
  obtain ⟨fl, fc, cp, hw⟩ := hi.heap
  refine ⟨⟨fl, fc, cp, hw.mem fun c q hq a h1 h2 => hm a fun r hr => ?_⟩, hi.cache, hi.slab, hi.nodup,
    hi.pids, hi.disjoint, fun {mq} hmq => ?_⟩
  · have hap := hw.slab_page_apart hq (hsub hr)
    have hlay := (hw.sizes c (hw.slab c q hq).1).layout
    unfold Apart at hap
    unfold OffBlock
    omega
  · by_cases he : mq = mp
    · subst he
      exact hmp hmq
    · have hh := hi.held hmq
      rw [hsame hmq he]
      exact hh.keep rfl rfl rfl hh.live fun hp => ⟨hh.other hp,
        (hi.write_own hsub hm).kept (hh.other hp) (hdis hmq he hp)⟩

/-- **A write to its blocks changes what one mapping shows, and nothing else.** -/
theorem Inv.write (hi : s.Inv ms G) (hmp : mp ∈ ms)
    (hm : ∀ a, (∀ q ∈ s.owned mp, OffBlock s.world.heap.buddy q a) → m a = s.mem a)
    (hroot : sp.root = (G mp).root) (ok : sp.Ok (s.owned mp)) (hs : Shows m sp) :
    (s.setMem m).Inv ms (Function.update G mp sp) ∧ Own mp s (s.setMem m) := by
  have hh := hi.held hmp
  refine ⟨hi.setMem _ hh.other hm (fun {mq q} hmq hne hq hq' => hne (hi.disjoint hmq hmp hq hq'))
    (fun _ hne => Function.update_of_ne hne _ _) fun _ => ?_, hi.write_own hh.other hm⟩
  rw [Function.update_self]
  refine ⟨hh.live, hh.chain, hh.nodup, hh.other, ok, by rw [hroot]; exact hh.address, ?_, hs⟩
  rw [hroot]
  exact hh.size

/-- A block taken from the page allocator, which nobody held. -/
structure Taken (p size : Nat) (s w : World) : Prop where
  step : Slab.Step s (.pageAlloc size) w
  other : w.other = p :: s.other
  live : w.live = s.live
  mem : w.heap.mem = s.heap.mem
  free : p ∉ s.other
  lt : p < pageNum
  size : size ≤ 2 ^ (w.heap.buddy.pages p).order * pageSize

theorem Inv.taken (hi : s.Inv ms G) (h : s.world.pageAlloc size = .ok (p, w)) :
    Taken p size s.world w := by
  obtain ⟨fl, fc, cp, hw⟩ := hi.heap
  obtain ⟨⟨q, b⟩, hb, h'⟩ := bind_eq_ok h
  obtain ⟨rfl, rfl⟩ := Prod.mk.inj (Except.ok.inj h')
  obtain ⟨hinv, hfresh, hfirst, hsize⟩ := hw.take_block hb
  refine ⟨.pageAlloc hb, rfl, rfl, rfl, fun hp => hfresh (mem_pages_other hp), ?_, hsize⟩
  obtain ⟨ord, free, wf⟩ := hinv.pool
  have hin : q + 2 ^ (b.pages q).order ≤ pageNum := head_inside wf hfirst
  have := Nat.two_pow_pos (b.pages q).order
  omega

@[simp] theorem addPage_owned (s : Mmu) (mp p : Nat) : (s.addPage mp p).owned mp = p :: s.owned mp := by
  simp [addPage]

theorem addPage_pid (s : Mmu) (mp p mq : Nat) :
    ((s.addPage mp p).mapping mq).pid = (s.mapping mq).pid := by
  by_cases he : mq = mp
  · subst he
    simp [addPage]
  · simp [addPage, he]

/-- A block that no mapping has goes to the front of a page list. -/
theorem Inv.addPage (hi : s.Inv ms G) (hp : p ∈ s.world.other) (hn : ∀ mq ∈ ms, p ∉ s.owned mq) :
    (s.addPage mp p).Inv ms G := by
  have hi' := hi.foreign (World.setNext_step hp (s.mapping mp).pageHead) hn
  refine ⟨hi'.heap, hi'.cache, hi'.slab, hi'.nodup, fun {mp' mq} hmp hmq he => ?_,
    fun {mp' mq q} hmp hmq hq hq' => ?_, fun {mq} hmq => ?_⟩
  · rw [addPage_pid, addPage_pid] at he
    exact hi.pids hmp hmq he
  · have hcases : ∀ {x}, x ∈ ms → q ∈ (s.addPage mp p).owned x → q ∈ s.owned x ∨ x = mp ∧ q = p := by
      intro x _ hx
      by_cases he : x = mp
      · subst he
        rw [addPage_owned] at hx
        exact (List.mem_cons.mp hx).symm.imp id fun h => ⟨rfl, h⟩
      · exact Or.inl (by simpa [Mmu.addPage, he] using hx)
    rcases hcases hmp hq with h1 | ⟨e1, h1⟩
    · rcases hcases hmq hq' with h2 | ⟨_, h2⟩
      · exact hi.disjoint hmp hmq h1 h2
      · exact absurd (h2 ▸ h1) (hn mp' hmp)
    · rcases hcases hmq hq' with h2 | ⟨e2, _⟩
      · exact absurd (h1 ▸ h2) (hn mq hmq)
      · rw [e1, e2]
  · have hh := hi'.held hmq
    by_cases he : mq = mp
    · subst he
      refine ⟨hh.live, ?_, ?_, fun {q} hq => ?_, ?_, ?_, hh.size, hh.tables⟩
      · rw [addPage_owned]
        refine ⟨by simp [Mmu.addPage], ?_⟩
        have hnext : (s.addPage mq p).world.heap.buddy.next p = (s.mapping mq).pageHead := by
          simp [Mmu.addPage, World.setNext, Buddy.next]
        rw [hnext]
        exact hh.chain
      · rw [addPage_owned]
        exact List.nodup_cons.mpr ⟨hn mq hmq, hh.nodup⟩
      · rw [addPage_owned] at hq
        rcases List.mem_cons.mp hq with rfl | hq
        · exact hp
        · exact hh.other hq
      · rw [addPage_owned]
        exact hh.space.mono (List.subset_cons_self ..)
      · have haddr := hh.address
        simpa [Mmu.addPage] using haddr
    · exact hh.keep rfl (by simp [Mmu.addPage, he]) (by simp [Mmu.addPage, he]) hh.live fun hq =>
        ⟨hh.other hq, rfl, .refl _ _ _⟩

/-- What a call that takes a block for a mapping has got. -/
structure Took (mp p size : Nat) (s s' : Mmu) : Prop where
  own : Own mp s s'
  mem : s'.mem = s.mem
  owned : s'.owned mp = p :: s.owned mp
  head : (s'.mapping mp).pageHead = some p
  next : s'.world.heap.buddy.next p = (s.mapping mp).pageHead
  /-- Nobody held it. -/
  free : p ∉ s.world.other
  lt : p < pageNum
  size : size ≤ 2 ^ (s'.world.heap.buddy.pages p).order * pageSize

theorem Inv.addPage_own (hi : s.Inv ms G) (ht : Taken p size s.world w)
    (hsub : ∀ {q}, q ∈ s.owned mp → q ∈ s.world.other) :
    Own mp s (Mmu.addPage { s with world := w } mp p) := by
  obtain ⟨fl, fc, cp, hw⟩ := hi.heap
  obtain ⟨fl1, fc1, cp1, hw1⟩ := Slab.inv_step hw ht.step
  refine ⟨⟨fun hq => ?_, fun {q} hq => ?_, fun {q} => ?_, fun {q} hq _ => ?_⟩, rfl, ht.live,
    fun hne => Function.update_of_ne hne _ _, by simp [Mmu.addPage],
    fun hne => Function.update_of_ne hne _ _⟩
  · rw [addPage_owned]
    exact List.mem_cons_of_mem _ hq
  · rw [addPage_owned] at hq
    rcases List.mem_cons.mp hq with rfl | hq
    · exact Or.inr ht.free
    · exact Or.inl hq
  · show q ∈ w.other ↔ _
    rw [ht.other, addPage_owned, List.mem_cons, List.mem_cons]
    constructor
    · rintro (rfl | hq)
      · exact Or.inr ⟨Or.inl rfl, fun hq => ht.free (hsub hq)⟩
      · exact Or.inl hq
    · rintro (hq | ⟨rfl | hq, hn⟩)
      · exact Or.inr hq
      · exact Or.inl rfl
      · exact absurd hq hn
  · have hne : p ≠ q := fun he => ht.free (he ▸ hq)
    have h1 := ht.step.page_kept hw hq (by simp) (by simp)
    have hmem : p ∈ w.other := by rw [ht.other]; exact List.mem_cons_self ..
    have h2 := (World.setNext_step hmem (s.mapping mp).pageHead).page_kept hw1 h1.1 (by simp)
      (by simpa using hne)
    exact h1.2.trans h2.2

/-- **`buddy_alloc` and `add_page`.** -/
theorem Inv.takePage (hi : s.Inv ms G) (hsub : ∀ {q}, q ∈ s.owned mp → q ∈ s.world.other)
    (h : s.takePage mp size = .ok (p, s')) : s'.Inv ms G ∧ Took mp p size s s' := by
  obtain ⟨⟨q, w⟩, ha, h⟩ := bind_eq_ok h
  obtain ⟨rfl, rfl⟩ := Prod.mk.inj (Except.ok.inj h)
  have ht := hi.taken ha
  have hi' := hi.foreign ht.step trivial
  have hmem : q ∈ w.other := by rw [ht.other]; exact List.mem_cons_self ..
  refine ⟨hi'.addPage hmem fun mq hmq hq => ht.free ((hi.held hmq).other hq), hi.addPage_own ht hsub,
    ht.mem, addPage_owned .., by simp [Mmu.addPage], ?_, ht.free, ht.lt,
    Nat.le_trans ht.size (Nat.le_of_eq ?_)⟩
  · simp [Mmu.addPage, World.setNext, Buddy.next]
  · simp [Mmu.addPage, World.setNext]

/-- A block of the mapping that is not its level-1 table does not meet it. -/
theorem Inv.clear (hi : s.Inv ms G) (hmp : mp ∈ ms) (hp : p ∈ s.world.other) (hne : p ≠ (G mp).root) :
    Space.Clear (G mp).root p := by
  obtain ⟨fl, fc, cp, hw⟩ := hi.heap
  have hh := hi.held hmp
  have hap := hw.page_apart hp (hh.other hh.space.root_mem) hne
  have hsz := hh.size
  unfold Space.Clear
  unfold Apart pageAddress pageSize l1Size l1EntryNum at *
  omega

/-! ## Tables and pages -/

theorem OffBlock.store (h : OffBlock b q a) (m : Bytes) (v : Nat)
    (h1 : pageAddress q ≤ x) (h2 : x + n ≤ pageAddress q + 2 ^ (b.pages q).order * pageSize) :
    m.store n x v a = m a := by
  unfold OffBlock at h
  exact store_agree m v (b := a) (k := 1) (by unfold Apart; omega) a (Nat.le_refl a) (Nat.lt_succ_self a)

theorem OffBlock.fill (h : OffBlock b q a) (m : Bytes) (v : UInt8)
    (h1 : pageAddress q ≤ x) (h2 : x + n ≤ pageAddress q + 2 ^ (b.pages q).order * pageSize) :
    m.fill x n v a = m a := by
  unfold OffBlock at h
  exact fill_agree m v (b := a) (k := 1) (by unfold Apart; omega) a (Nat.le_refl a) (Nat.lt_succ_self a)

/-- A call for a mapping that writes to its tables only. -/
structure Grown (mp : Nat) (s : Mmu) (sp : Space) (s' : Mmu) (sp' : Space) : Prop where
  own : Own mp s s'
  more : sp.More sp'
  mem : ∀ {a}, sp'.Off a → s'.mem a = s.mem a

theorem Grown.trans (h : Grown mp s sp s' sp')
    (h' : Grown mp s' sp' s'' sp'') : Grown mp s sp s'' sp'' :=
  ⟨h.own.trans h'.own, h.more.trans h'.more, fun ha => (h'.mem ha).trans (h.mem (h'.more.off ha))⟩

theorem Grown.refl (mp : Nat) (s : Mmu) (sp : Space) : Grown mp s sp s sp :=
  ⟨.refl mp s, .refl sp, fun _ => rfl⟩

theorem Inv.page_lt (hi : s.Inv ms G) (hp : p ∈ s.world.other) : p < pageNum := by
  obtain ⟨fl, fc, cp, hw⟩ := hi.heap
  obtain ⟨ord, free, wf⟩ := hw.pool
  have := head_inside wf (hw.allocated p (mem_pages_other hp))
  have := Nat.two_pow_pos (s.world.heap.buddy.pages p).order
  omega

/-- The address that a level-1 entry holds. -/
theorem table_address (ht : t < pageNum) :
    0xfffffc00 &&& tableWord (some t) = pageAddress t := by
  have hlt := Shows.page_lt ht
  have hd := Shows.page_dvd t
  have hword : tableWord (some t) = pageAddress t + 1 := rfl
  refine (and_high (k := 10) (n := 32) (by decide) (by omega)).trans ?_
  omega

theorem createTable_ok (h : s.createTable mp size = .ok (a, s')) :
    ∃ p u, s.takePage mp size = .ok (p, u) ∧ a = pageAddress p
      ∧ s' = u.setMem (u.mem.fill (pageAddress p) size 0) := by
  unfold createTable at h
  cases ht : s.takePage mp size with
  | error e =>
    rw [ht] at h
    cases h
  | ok r =>
    rw [ht] at h
    cases h
    exact ⟨r.1, r.2, rfl, rfl, rfl⟩

/-- A new level-2 table. -/
theorem Inv.addPl2 (hi : s.Inv ms G) (hmp : mp ∈ ms) (hlt : i < l1EntryNum)
    (hnone : (G mp).table i = none) (h : s.takePage mp l2Size = .ok (t, s'))
    (hm : m = (s'.mem.fill (pageAddress t) l2Size 0).store 4 (pageAddress (G mp).root + 4 * i)
      (0xfffffc00 &&& pageAddress t ||| flPageTable)) :
    (s'.setMem m).Inv ms (Function.update G mp ((G mp).addTable i t))
      ∧ Grown mp s (G mp) (s'.setMem m) ((G mp).addTable i t) := by
  have hh := hi.held hmp
  obtain ⟨hi', htook⟩ := hi.takePage hh.other h
  have hh' := hi'.held hmp
  have hnot : t ∉ s.owned mp := fun hp => htook.free (hh.other hp)
  have hroot : (G mp).root ∈ s'.owned mp := hh'.space.root_mem
  have hmem : t ∈ s'.owned mp := by
    rw [htook.owned]
    exact List.mem_cons_self ..
  have hne : t ≠ (G mp).root := fun he => hnot (he ▸ hh.space.root_mem)
  have hclear := hi'.clear hmp (hh'.other hmem) hne
  have hs : Shows m ((G mp).addTable i t) := by
    rw [hm, htook.mem]
    exact hh.tables.addTable hh.space hlt hnone hnot hclear htook.lt
  have hok : ((G mp).addTable i t).Ok (s'.owned mp) := by
    rw [htook.owned]
    exact hh.space.addTable hnot hclear
  have hsize := hh'.size
  have hpage := pageSize_le (s'.world.heap.buddy.pages t).order
  unfold l1Size l1EntryNum at *
  obtain ⟨hinv, hown⟩ := hi'.write hmp (m := m) (fun a ha => by
    rw [hm, (ha _ hroot).store _ _ (Nat.le_add_right ..) (by omega)]
    exact (ha t hmem).fill _ _ (Nat.le_refl _) (by unfold l2Size l2EntryNum pageSize at *; omega))
    (show ((G mp).addTable i t).root = (G mp).root from rfl) hok hs
  refine ⟨hinv, htook.own.trans hown, ⟨rfl, fun {k u} hk => ?_⟩, fun {a} ha => ?_⟩
  · rw [Space.addTable_ne _ _ fun he => ?_]
    · exact hk
    · rw [he, hnone] at hk
      cases hk
  · -- the entry lies in the level-1 table, the rest in the new one
    have h1 := ha.1
    have h2 := ha.2 (Space.addTable_self (G mp) i t)
    rw [Space.addTable_root] at h1
    unfold l1Size l1EntryNum at h1
    show m a = s.mem a
    rw [hm, store_agree _ _ (b := a) (k := 1) (by unfold Apart; omega) a (Nat.le_refl a) (Nat.lt_succ_self a),
      fill_agree _ _ (b := a) (k := 1) (by unfold Apart l2Size l2EntryNum pageSize at *; omega) a (Nat.le_refl a)
        (Nat.lt_succ_self a), htook.mem]

/-- **The level-2 table of a megabyte is there after `mmu_create_and_fill_pl2`.** -/
theorem Inv.fillPl2 (hi : s.Inv ms G) (hmp : mp ∈ ms) {pl2 : Nat} (hlt : i < l1EntryNum)
    (h : s.mmuCreateAndFillPl2 mp i = .ok (pl2, s')) :
    ∃ sp t, s'.Inv ms (Function.update G mp sp) ∧ Grown mp s (G mp) s' sp ∧ sp.table i = some t
      ∧ pl2 = pageAddress t ∧ sp.leaf = (G mp).leaf := by
  have hh := hi.held hmp
  have hload := hh.tables.l1 hlt
  unfold mmuCreateAndFillPl2 at h
  rw [hh.address] at h
  cases ht : (G mp).table i with
  | some t =>
    have htlt := hi.page_lt (hh.other (hh.space.table_mem ht))
    have hand : tableWord (some t) &&& flPageTable ≠ 0 := by
      have hd := Shows.page_dvd t
      have hword : tableWord (some t) = pageAddress t + 1 := rfl
      unfold flPageTable
      rw [Nat.and_one_is_mod]
      omega
    rw [ht] at hload
    simp only [hload, if_neg hand, bind, Except.bind] at h
    cases h
    exact ⟨G mp, t, by rwa [Function.update_eq_self], .refl mp _ _, ht, table_address htlt, rfl⟩
  | none =>
    rw [ht] at hload
    simp only [hload] at h
    obtain ⟨⟨a, s₁⟩, h1, h⟩ := bind_eq_ok h
    obtain ⟨t, s₀, h0, rfl, rfl⟩ := createTable_ok h1
    cases h
    obtain ⟨hinv, hgrown⟩ := hi.addPl2 hmp hlt ht h0 rfl
    have hself := Space.addTable_self (G mp) i t
    have hsp := hinv.held hmp
    rw [Function.update_self] at hsp
    have htlt := hinv.page_lt (hsp.other (hsp.space.table_mem hself))
    have hl := hsp.tables.l1 hlt
    rw [hself] at hl
    exact ⟨(G mp).addTable i t, t, hinv, hgrown, hself,
      (congrArg (0xfffffc00 &&& ·) hl).trans (table_address htlt), rfl⟩

/-- A call that maps `n` pages from `v` on to blocks that nobody held. -/
structure Mapped (mp v n : Nat) (s : Mmu) (sp : Space) (s' : Mmu) (sp' : Space) : Prop
    extends Grown mp s sp s' sp' where
  outside : ∀ {w}, w < v ∨ v + n ≤ w → sp'.leaf w = sp.leaf w
  inside : ∀ {w}, v ≤ w → w < v + n → ∃ p, sp'.leaf w = .user p ∧ p ∉ s.world.other

/-- One round of the loop of `mmu_create_mapping`. -/
theorem Inv.mapPage (hi : s.Inv ms G) (hmp : mp ∈ ms) {j : Nat} (ht : (G mp).table i = some t)
    (hj : j < l2EntryNum) (h : s.takePage mp pageSize = .ok (p, s'))
    (hm : m = s'.mem.store 4 (pageAddress t + 4 * j)
      (pageAddress p ||| slShortDescriptor ||| apFullAccess)) :
    (s'.setMem m).Inv ms (Function.update G mp ((G mp).setLeaf (256 * i + j) (.user p)))
      ∧ Mapped mp (256 * i + j) 1 s (G mp) (s'.setMem m) ((G mp).setLeaf (256 * i + j) (.user p)) := by
  have hh := hi.held hmp
  obtain ⟨hi', htook⟩ := hi.takePage hh.other h
  have hh' := hi'.held hmp
  have hnot : p ∉ s.owned mp := fun hp => htook.free (hh.other hp)
  have hmem : p ∈ s'.owned mp := by
    rw [htook.owned]
    exact List.mem_cons_self ..
  have htable : t ∈ s'.owned mp := hh'.space.table_mem ht
  have hne : p ≠ (G mp).root := fun he => hnot (he ▸ hh.space.root_mem)
  have hword : (pageAddress p ||| slShortDescriptor ||| apFullAccess) = (Leaf.user p).word := by
    rw [Nat.or_assoc]
    exact or_low (Shows.page_dvd p) (by decide)
  rw [hword] at hm
  have hlt := Shows.page_lt htook.lt
  have hs : Shows m ((G mp).setLeaf (256 * i + j) (.user p)) := by
    rw [hm]
    exact hh'.tables.setLeaf hh'.space ht hj (by show pageAddress p + 0x32 < _; omega)
  unfold l2EntryNum at hj
  have hok : ((G mp).setLeaf (256 * i + j) (.user p)).Ok (s'.owned mp) := by
    rw [htook.owned]
    refine hh.space.setUser hnot (hi'.clear hmp (hh'.other hmem) hne) (t := t) ?_
    rw [show (256 * i + j) / 256 = i by omega]
    exact ht
  have hpage := pageSize_le (s'.world.heap.buddy.pages t).order
  have hin : pageAddress t + 4 * j + 4 ≤ pageAddress t + pageSize := by
    unfold pageSize
    omega
  obtain ⟨hinv, hown⟩ := hi'.write hmp (m := m) (fun a ha => by
    rw [hm]
    exact (ha t htable).store _ _ (Nat.le_add_right ..) (by omega))
    (show ((G mp).setLeaf (256 * i + j) (.user p)).root = (G mp).root from rfl) hok hs
  refine ⟨hinv, ⟨htook.own.trans hown, ⟨rfl, id⟩, fun {a} ha => ?_⟩, fun {w} hw => ?_, fun {w} h1 h2 => ?_⟩
  · have hoff := ha.2 (i := i) (t := t) ht
    show m a = s.mem a
    rw [hm, store_agree _ _ (b := a) (k := 1) (by unfold Apart; omega) a (Nat.le_refl a) (Nat.lt_succ_self a),
      htook.mem]
  · exact Space.setLeaf_ne _ _ (by omega)
  · obtain rfl : w = 256 * i + j := by omega
    exact ⟨p, Space.setLeaf_self .., htook.free⟩

theorem Mapped.trans {v k : Nat} (h : Mapped mp v n s sp s' sp')
    (h' : Mapped mp (v + n) k s' sp' s'' sp'') : Mapped mp v (n + k) s sp s'' sp'' := by
  refine ⟨h.toGrown.trans h'.toGrown, fun {w} hw => ?_, fun {w} h1 h2 => ?_⟩
  · rw [h'.outside (by omega), h.outside (by omega)]
  · by_cases hw : w < v + n
    · rw [h'.outside (Or.inl hw)]
      exact h.inside h1 hw
    · obtain ⟨p, hp, hfree⟩ := h'.inside (w := w) (by omega) (by omega)
      exact ⟨p, hp, fun hq => hfree (h.own.other.mpr (Or.inl hq))⟩

/-- The loop of `mmu_create_mapping`. -/
theorem Inv.mappingLoop : ∀ {n j : Nat} {s s' : Mmu} {G : Nat → Space}, s.Inv ms G → mp ∈ ms →
    (G mp).table i = some t → j + n ≤ l2EntryNum →
    mappingLoop mp (pageAddress t) apFullAccess n j s = .ok s' →
    ∃ sp, s'.Inv ms (Function.update G mp sp) ∧ Mapped mp (256 * i + j) n s (G mp) s' sp := by
  intro n
  induction n with
  | zero =>
    intro j s s' G hi hmp _ _ h
    cases h
    refine ⟨G mp, by rwa [Function.update_eq_self], .refl mp s (G mp), fun _ => rfl, fun h1 h2 => ?_⟩
    omega
  | succ n ih =>
    intro j s s' G hi hmp ht hj h
    obtain ⟨⟨a, s₁⟩, h1, h⟩ := bind_eq_ok h
    obtain ⟨⟨p, s₀⟩, h0, h1⟩ := bind_eq_ok h1
    cases h1
    obtain ⟨hi1, hm1⟩ := hi.mapPage (j := j) hmp ht (by omega) h0 rfl
    obtain ⟨sp, hi2, hm2⟩ := ih (j := j + 1) hi1 hmp (by rw [Function.update_self]; exact ht) (by omega) h
    rw [Function.update_idem] at hi2
    rw [Function.update_self] at hm2
    refine ⟨sp, hi2, ?_⟩
    rw [Nat.add_comm n 1]
    exact hm1.trans hm2

theorem getL1Index_eq (addr : Nat) : getL1Index addr = addr / 2 ^ 20 := Nat.shiftRight_eq_div_pow ..

theorem getL2Index_eq (addr : Nat) : getL2Index addr = addr / 2 ^ 12 % 256 := by
  unfold getL2Index
  rw [Nat.shiftRight_and_distrib, Nat.shiftRight_eq_div_pow]
  exact Nat.and_two_pow_sub_one_eq_mod _ 8

/-- **`mmu_create_mapping` for a process.** -/
theorem Inv.createMapping (hi : s.Inv ms G) (hmp : mp ∈ ms) (haddr : addr < 2 ^ 32)
    (h : s.mmuCreateMapping mp addr size false = .ok (r, s')) :
    (r = -1 ∧ s' = s ∧ l2EntryNum < addr / 2 ^ 12 % 256 + getPageSize size) ∨
      (r = 0 ∧ addr / 2 ^ 12 % 256 + getPageSize size ≤ l2EntryNum ∧
        ∃ sp, s'.Inv ms (Function.update G mp sp)
          ∧ Mapped mp (addr / 2 ^ 12) (getPageSize size) s (G mp) s' sp) := by
  unfold mmuCreateMapping at h
  rw [getL1Index_eq, getL2Index_eq] at h
  split at h
  · cases h
    exact Or.inl ⟨rfl, rfl, ‹_›⟩
  · obtain ⟨⟨pl2, s₁⟩, h1, h⟩ := bind_eq_ok h
    obtain ⟨s₂, h2, h⟩ := bind_eq_ok h
    cases h
    obtain ⟨sp1, t, hi1, hg1, ht, rfl, hleaf⟩ := hi.fillPl2 hmp (by unfold l1EntryNum; omega) h1
    obtain ⟨sp, hi2, hm⟩ := Inv.mappingLoop hi1 hmp (by rw [Function.update_self]; exact ht) (by omega) h2
    rw [Function.update_idem] at hi2
    rw [Function.update_self, show 256 * (addr / 2 ^ 20) + addr / 2 ^ 12 % 256 = addr / 2 ^ 12 by omega] at hm
    refine Or.inr ⟨rfl, by omega, sp, hi2, hg1.trans hm.toGrown, fun hw => ?_, fun h1 h2 => ?_⟩
    · rw [hm.outside hw, hleaf]
    · obtain ⟨p, hp, hfree⟩ := hm.inside h1 h2
      exact ⟨p, hp, fun hq => hfree (hg1.own.other.mpr (Or.inl hq))⟩

/-! ## The kernel's own pages -/

/-- A run of pages is mapped one to one, and nothing else changes. -/
def Straight (v n : Nat) (sp sp' : Space) : Prop :=
  ∀ w, sp'.leaf w = if v ≤ w ∧ w < v + n then .kernel (4096 * w) else sp.leaf w

theorem Inv.straight (hi : s.Inv ms G) (hmp : mp ∈ ms) (hlt : addr < 2 ^ 32)
    (haddr : addr / 2 ^ 12 + getPageSize size ≤ 2 ^ 20)
    (hfit : addr / 2 ^ 12 % 256 + getPageSize size ≤ l2EntryNum)
    (h : s.mmuCreateStraightMapping mp addr size = .ok (r, s')) :
    ∃ sp, s'.Inv ms (Function.update G mp sp) ∧ Own mp s s'
      ∧ Straight (addr / 2 ^ 12) (getPageSize size) (G mp) sp := by
  unfold mmuCreateStraightMapping at h
  rw [getL1Index_eq, getL2Index_eq, if_neg (by omega)] at h
  obtain ⟨⟨pl2, s₁⟩, h1, h⟩ := bind_eq_ok h
  cases h
  obtain ⟨sp, t, hi1, hg, ht, rfl, hleaf⟩ := hi.fillPl2 hmp (by unfold l1EntryNum; omega) h1
  have hh := hi1.held hmp
  rw [Function.update_self] at hh
  obtain ⟨hs, hok⟩ := hh.tables.straight hh.space addr ht hfit haddr
  have htable : t ∈ s₁.owned mp := hh.space.table_mem ht
  have hpage := pageSize_le (s₁.world.heap.buddy.pages t).order
  obtain ⟨hi2, hown⟩ := hi1.write hmp (fun a ha => by
    have := ha t htable
    unfold OffBlock at this
    exact Shows.straight_agree s₁.mem (by omega) hfit) (by rw [Function.update_self]; rfl) hok hs
  rw [Function.update_idem] at hi2
  refine ⟨_, hi2, hg.own.trans hown, fun w => ?_⟩
  rw [show 256 * (addr / 2 ^ 20) + addr / 2 ^ 12 % 256 = addr / 2 ^ 12 by omega]
  show (if _ then Leaf.kernel _ else sp.leaf w) = _
  rw [hleaf]
  by_cases hw : addr / 2 ^ 12 ≤ w ∧ w < addr / 2 ^ 12 + getPageSize size
  · rw [if_pos hw, if_pos hw]
    congr 1
    omega
  · rw [if_neg hw, if_neg hw]

/-- The exception vectors. -/
theorem Inv.vectors (hi : s.Inv ms G) (hmp : mp ∈ ms) (h : s.mmuCreateVectorsMapping mp = .ok s') :
    ∃ sp p, s'.Inv ms (Function.update G mp sp) ∧ Own mp s s'
      ∧ sp.leaf = Function.update (G mp).leaf 0xffff0 (.kernel (pageAddress p)) := by
  obtain ⟨⟨pl2, s₁⟩, h1, h⟩ := bind_eq_ok h
  obtain ⟨⟨a, s₂⟩, h2, h⟩ := bind_eq_ok h
  obtain ⟨⟨p, s₀⟩, h0, h2⟩ := bind_eq_ok h2
  obtain ⟨rfl, rfl⟩ := Prod.mk.inj (Except.ok.inj h2)
  obtain rfl := Except.ok.inj h
  obtain ⟨sp, t, hi1, hg, ht, rfl, hleaf⟩ := hi.fillPl2 hmp (by decide) h1
  have hh1 := hi1.held hmp
  obtain ⟨hi2, htook⟩ := hi1.takePage hh1.other h0
  have hh2 := hi2.held hmp
  rw [Function.update_self] at hh1 hh2
  have hmem : p ∈ s₀.owned mp := by
    rw [htook.owned]
    exact List.mem_cons_self ..
  have hnot : ∀ {q}, q ∈ s₁.owned mp → p ≠ q := by
    rintro q hq rfl
    exact htook.free (hh1.other hq)
  have htable : t ∈ s₀.owned mp := hh2.space.table_mem ht
  have hpage := pageSize_le (s₀.world.heap.buddy.pages t).order
  have hpage' := pageSize_le (s₀.world.heap.buddy.pages p).order
  have hclear := hi2.clear hmp (hh2.other hmem) (by
    rw [Function.update_self]
    exact hnot hh1.space.root_mem)
  rw [Function.update_self] at hclear
  -- the vectors are copied to a page that holds no table
  have hs1 : Shows (s₀.mem.copy (pageAddress p) s₀.mem s₀.vectorsStart vectorsSize) sp := by
    refine hh2.tables.congr (copy_agree _ _ _ (Shows.root_apart hclear (by decide))) fun {i u} hu => ?_
    exact copy_agree _ _ _ (Shows.pages_apart (hnot (hh1.space.table_mem hu)) (by decide) (by decide))
  have hword : (pageAddress p ||| slShortDescriptor ||| apPrivilegedAccess)
      = (Leaf.kernel (pageAddress p)).word := by
    rw [Nat.or_assoc]
    exact or_low (Shows.page_dvd p) (by decide)
  have hlt := Shows.page_lt htook.lt
  have hs := hs1.setLeaf hh2.space (j := getL2Index virtVectorsAddr) (l := .kernel (pageAddress p)) ht
    (by decide) (by show pageAddress p + 0x12 < _; omega)
  have hd := Shows.page_dvd p
  have hok := hh2.space.setKernel (a := pageAddress p) (t := t)
    (v := 256 * getL1Index virtVectorsAddr + getL2Index virtVectorsAddr) (by omega) (by
      exact ht)
  obtain ⟨hi3, hown⟩ := hi2.write hmp (fun a ha => by
    have h1 := ha p hmem
    unfold OffBlock at h1
    rw [(ha t htable).store _ _ (Nat.le_add_right ..) (by
      have : 4 * getL2Index virtVectorsAddr + 4 ≤ pageSize := by decide
      omega)]
    exact copy_out _ _ (by unfold vectorsSize pageSize at *; omega)) (by rw [Function.update_self]; rfl) hok hs
  rw [Function.update_idem, ← hword] at hi3
  rw [← hword] at hown
  refine ⟨_, p, hi3, hg.own.trans (htook.own.trans hown), ?_⟩
  rw [← hleaf]
  rfl

theorem Inv.windowLoop : ∀ {n i : Nat} {s s' : Mmu} {G : Nat → Space}, s.Inv ms G → mp ∈ ms →
    i + n ≤ 0x90 → windowLoop mp n i s = .ok s' →
    ∃ sp, s'.Inv ms (Function.update G mp sp) ∧ Own mp s s'
      ∧ Straight (0x60000 + 256 * i) (256 * n) (G mp) sp := by
  intro n
  induction n with
  | zero =>
    intro i s s' G hi hmp _ h
    cases h
    refine ⟨G mp, by rwa [Function.update_eq_self], .refl mp s, fun w => ?_⟩
    rw [if_neg (by omega)]
  | succ n ih =>
    intro i s s' G hi hmp hin h
    obtain ⟨⟨r, s₁⟩, h1, h⟩ := bind_eq_ok h
    have hsize : getPageSize 0x100000 = 256 := by decide
    obtain ⟨sp1, hi1, hown1, hst1⟩ := hi.straight hmp (by omega) (by omega)
      (by unfold l2EntryNum; omega) h1
    obtain ⟨sp, hi2, hown2, hst2⟩ := ih (i := i + 1) hi1 hmp (by omega) h
    rw [Function.update_idem] at hi2
    rw [Function.update_self] at hst2
    refine ⟨sp, hi2, hown1.trans hown2, fun w => ?_⟩
    rw [hst2 w, hst1 w]
    by_cases hw : 0x60000 + 256 * i ≤ w ∧ w < 0x60000 + 256 * i + 256 * (n + 1)
    · rw [if_pos hw]
      by_cases hw' : 0x60000 + 256 * (i + 1) ≤ w ∧ w < 0x60000 + 256 * (i + 1) + 256 * n
      · rw [if_pos hw']
      · rw [if_neg hw', if_pos (by omega)]
    · rw [if_neg hw, if_neg (by omega), if_neg (by omega)]

/-- What every mapping shows the kernel: the vectors, the kernel, and two devices. -/
def kernelLeaf (vectors w : Nat) : Leaf :=
  if w = 0xffff0 then .kernel vectors
  else if 0x60000 ≤ w ∧ w < 0x69000 ∨ 0x10000 ≤ w ∧ w < 0x10020 ∨ 0x1e000 ≤ w ∧ w < 0x1e002 then
    .kernel (4096 * w)
  else .none

theorem Inv.kernelMappings (hi : s.Inv ms G) (hmp : mp ∈ ms) (hbare : ∀ w, (G mp).leaf w = .none)
    (h : s.mmuCreateKernelMappings mp = .ok s') :
    ∃ sp p, s'.Inv ms (Function.update G mp sp) ∧ Own mp s s'
      ∧ ∀ w, sp.leaf w = kernelLeaf (pageAddress p) w := by
  obtain ⟨s₁, h1, h⟩ := bind_eq_ok h
  obtain ⟨s₂, h2, h⟩ := bind_eq_ok h
  obtain ⟨⟨r3, s₃⟩, h3, h⟩ := bind_eq_ok h
  obtain ⟨⟨r4, s₄⟩, h4, h⟩ := bind_eq_ok h
  cases h
  obtain ⟨sp1, p, hi1, hown1, hl1⟩ := hi.vectors hmp h1
  obtain ⟨sp2, hi2, hown2, hl2⟩ := Inv.windowLoop hi1 hmp (by decide) h2
  rw [Function.update_idem] at hi2
  obtain ⟨sp3, hi3, hown3, hl3⟩ := hi2.straight hmp (by decide) (by decide) (by decide) h3
  rw [Function.update_idem] at hi3
  obtain ⟨sp4, hi4, hown4, hl4⟩ := hi3.straight hmp (by decide) (by decide) (by decide) h4
  rw [Function.update_idem] at hi4
  rw [Function.update_self] at hl2 hl3 hl4
  refine ⟨sp4, p, hi4, hown1.trans (hown2.trans (hown3.trans hown4)), fun w => ?_⟩
  have hs3 : getPageSize 0x20000 = 0x20 := by decide
  have hs4 : getPageSize 0x2000 = 2 := by decide
  have hw1 : sp1.leaf w = if w = 0xffff0 then .kernel (pageAddress p) else .none := by
    rw [hl1, Function.update_apply, hbare w]
  rw [hl4 w, hl3 w, hl2 w, hw1]
  unfold kernelLeaf
  by_cases hv : w = 0xffff0
  · rw [if_pos hv, if_pos hv, if_neg (by omega), if_neg (by omega), if_neg (by omega)]
  · split_ifs <;> first | rfl | omega

/-! ## A new mapping -/

/-- The record of a mapping that is not in use may be anything. -/
theorem Inv.record (hi : s.Inv ms G) (hmp : mp ∉ ms) (x : Mapping) (l : List Nat) :
    Inv { s with mapping := Function.update s.mapping mp x, owned := Function.update s.owned mp l } ms G := by
  have hm : ∀ {mq}, mq ∈ ms → Function.update s.mapping mp x mq = s.mapping mq := fun hq =>
    Function.update_of_ne (ne_of_mem_of_not_mem hq hmp) _ _
  have ho : ∀ {mq}, mq ∈ ms → Function.update s.owned mp l mq = s.owned mq := fun hq =>
    Function.update_of_ne (ne_of_mem_of_not_mem hq hmp) _ _
  refine ⟨hi.heap, hi.cache, hi.slab, hi.nodup, fun {mp' mq} h1 h2 he => ?_, fun {mp' mq p} h1 h2 hp hp' => ?_,
    fun {mq} hq => ?_⟩
  · refine hi.pids h1 h2 ?_
    simpa only [hm h1, hm h2] using he
  · refine hi.disjoint (p := p) h1 h2 ?_ ?_
    · simpa only [ho h1] using hp
    · simpa only [ho h2] using hp'
  · have hh := hi.held hq
    exact hh.keep rfl (hm hq) (ho hq) hh.live fun hp => ⟨hh.other hp, rfl, .refl _ _ _⟩

/-- A mapping that is complete joins those in use. -/
theorem Inv.enlist (hi : s.Inv ms G) (hmp : mp ∉ ms) (hpid : ∀ mq ∈ ms, (s.mapping mq).pid ≠ (s.mapping mp).pid)
    (hdis : ∀ {mq q}, mq ∈ ms → q ∈ s.owned mq → q ∉ s.owned mp) (hh : s.Held mp sp) :
    s.Inv (mp :: ms) (Function.update G mp sp) := by
  refine ⟨hi.heap, hi.cache, hi.slab, List.nodup_cons.mpr ⟨hmp, hi.nodup⟩, fun {mp' mq} h1 h2 he => ?_,
    fun {mp' mq q} h1 h2 hq hq' => ?_, fun {mq} hq => ?_⟩
  · rcases List.mem_cons.mp h1 with rfl | g1
    · rcases List.mem_cons.mp h2 with rfl | g2
      · rfl
      · exact absurd he.symm (hpid mq g2)
    · rcases List.mem_cons.mp h2 with rfl | g2
      · exact absurd he (hpid mp' g1)
      · exact hi.pids g1 g2 he
  · rcases List.mem_cons.mp h1 with rfl | g1
    · rcases List.mem_cons.mp h2 with rfl | g2
      · rfl
      · exact absurd hq (hdis g2 hq')
    · rcases List.mem_cons.mp h2 with rfl | g2
      · exact absurd hq' (hdis g1 hq)
      · exact hi.disjoint g1 g2 hq hq'
  · rcases List.mem_cons.mp hq with rfl | hq
    · rw [Function.update_self]
      exact hh
    · rw [Function.update_of_ne (ne_of_mem_of_not_mem hq hmp)]
      exact hi.held hq

/-- The mapping of a pid is the one that is found. -/
theorem find_some (h : s.find pid = some mp) :
    mp ∈ s.mappings ∧ (s.mapping mp).pid = pid :=
  ⟨List.mem_of_find?_eq_some h, by simpa using List.find?_some h⟩

theorem find_none (h : s.find pid = none) : ∀ mq ∈ s.mappings, (s.mapping mq).pid ≠ pid := by
  intro mq hq
  simpa using List.find?_eq_none.mp h mq hq

/-- A new mapping has been made for the pid, from blocks that nobody held. -/
structure Fetched (pid : Int) (mp : Nat) (s s' : Mmu) : Prop
    extends Takes s.world [] s'.world (s'.owned mp) where
  rest : s' = { s with
    world := s'.world, mapping := s'.mapping, owned := s'.owned, mappings := mp :: s.mappings }
  new : mp ∉ s.mappings
  pid : (s'.mapping mp).pid = pid
  mapping : ∀ {mq}, mq ≠ mp → s'.mapping mq = s.mapping mq
  owned : ∀ {mq}, mq ≠ mp → s'.owned mq = s.owned mq
  live : s'.world.live = (s.mappingCache, mp) :: s.world.live

/-- The list, the register and the current pid do not matter. -/
theorem Inv.relist (hi : s.Inv ms G) (l : List Nat) (pid : Int) (a : Nat) :
    Inv { s with mappings := l, currentPid := pid, ttbr := a } ms G :=
  ⟨hi.heap, hi.cache, hi.slab, hi.nodup, hi.pids, hi.disjoint, fun h =>
    have hh := hi.held h
    ⟨hh.live, hh.chain, hh.nodup, hh.other, hh.space, hh.address, hh.size, hh.tables⟩⟩

/-- The record of a mapping and its level-1 table. -/
theorem Inv.newRoot (hi : s.Inv ms G) (hmp : mp ∉ ms) (hlive : (s.mappingCache, mp) ∈ s.world.live)
    (hpid : ∀ mq ∈ ms, (s.mapping mq).pid ≠ (s.mapping mp).pid) (ho : s.owned mp = [])
    (hh : (s.mapping mp).pageHead = none) (h : s.mmuCreatePl1 mp = .ok (a, s')) :
    ∃ p, Own mp s s' ∧ s'.owned mp = [p] ∧ Inv { s' with
      mapping := Function.update s'.mapping mp { s'.mapping mp with address := a } } (mp :: ms)
        (Function.update G mp (Space.empty p)) := by
  obtain ⟨p, t, ht, rfl, rfl⟩ := createTable_ok h
  have hsub : ∀ {q}, q ∈ s.owned mp → q ∈ s.world.other := by
    intro q hq
    rw [ho] at hq
    cases hq
  obtain ⟨hi1, htook⟩ := hi.takePage hsub ht
  have howned : t.owned mp = [p] := by rw [htook.owned, ho]
  have hmem : p ∈ t.world.other :=
    htook.own.other.mpr (Or.inr ⟨by rw [howned]; exact List.mem_singleton.mpr rfl, by rw [ho]; simp⟩)
  have hsub' : ∀ {q}, q ∈ t.owned mp → q ∈ t.world.other := by
    intro q hq
    rw [howned] at hq
    rw [List.mem_singleton.mp hq]
    exact hmem
  have hm : ∀ x, (∀ q ∈ t.owned mp, OffBlock t.world.heap.buddy q x) →
      (t.mem.fill (pageAddress p) l1Size 0) x = t.mem x := by
    intro x hx
    rw [howned] at hx
    exact (hx p (List.mem_singleton.mpr rfl)).fill _ _ (Nat.le_refl _) (by have := htook.size; omega)
  have hdis : ∀ {mq q}, mq ∈ ms → q ∈ t.owned mq → q ∉ t.owned mp := by
    intro mq q hmq hq hq'
    rw [howned] at hq'
    obtain rfl := List.mem_singleton.mp hq'
    rw [htook.own.owned (ne_of_mem_of_not_mem hmq hmp)] at hq
    exact htook.free ((hi.held hmq).other hq)
  have hi2 := hi1.setMem G hsub' hm (fun hmq _ hq => hdis hmq hq) (fun _ _ => rfl)
    fun hin => absurd hin hmp
  have hi3 := hi2.record hmp { t.mapping mp with address := pageAddress p } (t.owned mp)
  refine ⟨p, htook.own.trans (hi1.write_own hsub' hm), howned, ?_⟩
  rw [show (t.setMem (t.mem.fill (pageAddress p) l1Size 0)).owned = t.owned from rfl,
    Function.update_eq_self] at hi3
  refine hi3.enlist hmp (fun mq hmq => ?_) hdis ⟨?_, ?_, ?_, hsub', ?_, ?_, ?_, Shows.empty t.mem p⟩
  · have hne := ne_of_mem_of_not_mem hmq hmp
    have := hpid mq hmq
    simpa [hne, Mmu.setMem, htook.own.mapping hne, htook.own.record.1] using this
  · show (t.mappingCache, mp) ∈ t.world.live
    rw [htook.own.cache, htook.own.live]
    exact hlive
  · have hnext : t.world.heap.buddy.next p = none := htook.next.trans hh
    show Chain t.world.heap.buddy.next (Function.update t.mapping mp _ mp).pageHead (t.owned mp)
    rw [howned, Function.update_self]
    exact ⟨htook.head, hnext⟩
  · rw [howned]
    exact List.nodup_singleton p
  · rw [howned]
    exact Space.ok_empty p
  · show (Function.update t.mapping mp _ mp).address = pageAddress p
    rw [Function.update_self]
  · exact htook.size

/-- The state in which `mmu_mapping_fetch` has set up a record. -/
def newRecord (s : Mmu) (w : World) (mp : Nat) (pid : Int) : Mmu :=
  { s with
    world := w
    mapping := Function.update s.mapping mp { pid := pid }
    owned := Function.update s.owned mp [] }

theorem Inv.newRecord (hi : s.Inv s.mappings G) (pid : Int)
    (ha : s.world.cacheAlloc s.mappingCache = .ok (mp, w)) :
    mp ∉ s.mappings ∧ (s.newRecord w mp pid).Inv s.mappings G := by
  obtain ⟨fl, fc, cp, hw⟩ := hi.heap
  obtain ⟨hstep, _, hlive⟩ := World.cacheAlloc_step hi.cache ha
  obtain ⟨fl1, fc1, cp1, hw1⟩ := Slab.inv_step hw hstep
  have hnew : mp ∉ s.mappings := by
    intro hmp
    have hnd := hw1.liveNodup
    rw [hlive] at hnd
    exact (List.nodup_cons.mp hnd).1 (hi.held hmp).live
  exact ⟨hnew, (hi.foreign hstep trivial).record hnew { pid := pid } []⟩

/-- The mapping with its level-1 table, which maps nothing yet. -/
theorem Inv.newTable (hi : s.Inv s.mappings G) (hnone : s.find pid = none)
    (ha : s.world.cacheAlloc s.mappingCache = .ok (mp, w))
    (h : (s.newRecord w mp pid).mmuCreatePl1 mp = .ok (a, s')) :
    ∃ p, Own mp (s.newRecord w mp pid) s' ∧ s'.owned mp = [p] ∧ Inv { s' with
      mapping := Function.update s'.mapping mp { s'.mapping mp with address := a } } (mp :: s.mappings)
        (Function.update G mp (Space.empty p)) := by
  obtain ⟨hnew, hi0⟩ := hi.newRecord pid ha
  obtain ⟨_, _, hlive⟩ := World.cacheAlloc_step hi.cache ha
  have hself : (s.newRecord w mp pid).mapping mp = { pid := pid } := Function.update_self ..
  refine hi0.newRoot hnew (by simp [Mmu.newRecord, hlive]) (fun mq hmq => ?_) (Function.update_self ..)
    (by rw [hself]) h
  rw [hself, show (s.newRecord w mp pid).mapping mq = s.mapping mq from
    Function.update_of_ne (ne_of_mem_of_not_mem hmq hnew) _ _]
  exact find_none hnone mq hmq

/-- **`mmu_mapping_fetch` for a pid that has no mapping.** -/
theorem Inv.newMapping (hi : s.Inv s.mappings G) (hnone : s.find pid = none)
    (h : s.mmuMappingFetch pid = .ok (mp, s')) :
    Fetched pid mp s s' ∧ ∃ sp p, s'.Inv s'.mappings (Function.update G mp sp)
      ∧ ∀ w, sp.leaf w = kernelLeaf (pageAddress p) w := by
  obtain ⟨fl, fc, cp, hw⟩ := hi.heap
  unfold mmuMappingFetch at h
  rw [hnone] at h
  obtain ⟨⟨mp', w⟩, ha, h⟩ := bind_eq_ok h
  obtain ⟨⟨a, s₁⟩, h1, h⟩ := bind_eq_ok h
  obtain ⟨s₂, h2, h⟩ := bind_eq_ok h
  obtain ⟨rfl, rfl⟩ := Prod.mk.inj (Except.ok.inj h)
  obtain ⟨hstep, hother0, hlive0⟩ := World.cacheAlloc_step hi.cache ha
  obtain ⟨hnew, _⟩ := hi.newRecord pid ha
  obtain ⟨p, hown1, howned1, hi1⟩ := hi.newTable hnone ha h1
  have howned0 : (s.newRecord w mp' pid).owned mp' = [] := Function.update_self ..
  obtain ⟨sp, vec, hi2, hown2, hleaf⟩ := hi1.kernelMappings (List.mem_cons_self ..)
    (fun w => by rw [Function.update_self]; rfl) h2
  rw [Function.update_idem] at hi2
  have hmap : s₂.mappings = s.mappings := hown2.mappings.trans hown1.mappings
  -- the record lies in a slab; everything else is taken for the mapping
  have htakes0 : Takes s.world [] (s.newRecord w mp' pid).world [] :=
    ⟨id, Or.inl, by rw [show (s.newRecord w mp' pid).world.other = s.world.other from hother0]; simp,
      fun hq _ => (hstep.page_kept hw hq (by simp) (by simp)).2⟩
  have htakes1 := hown1.toTakes
  rw [howned0] at htakes1
  refine ⟨⟨htakes0.trans (htakes1.trans hown2.toTakes), ?_, hnew, ?_, fun hne => ?_, fun hne => ?_, ?_⟩,
    sp, vec, ?_, hleaf⟩
  · rw [hown2.rest, hown1.rest]
    rfl
  · refine hown2.record.1.trans ?_
    show (Function.update s₁.mapping mp' _ mp').pid = _
    rw [Function.update_self]
    refine hown1.record.1.trans ?_
    show (Function.update s.mapping mp' _ mp').pid = _
    rw [Function.update_self]
  · refine (hown2.mapping hne).trans ?_
    show Function.update s₁.mapping mp' _ _ = _
    rw [Function.update_of_ne hne, hown1.mapping hne]
    exact Function.update_of_ne hne _ _
  · exact (hown2.owned hne).trans ((hown1.owned hne).trans (Function.update_of_ne hne _ _))
  · exact hown2.live.trans (hown1.live.trans hlive0)
  · have := hi2.relist (mp' :: s₂.mappings) s₂.currentPid s₂.ttbr
    rwa [← hmap] at this

end Mmu

end Cyanurus
