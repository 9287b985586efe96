import Cyanurus.Mem.MmuRun

/-!
# Address-space isolation

Runs of `mmu_set_ttb`, `mmu_alloc` and `mmu_destroy` for any pids, in any order, while the
rest of the kernel takes and gives back memory.

The walk of the memory-management unit over the words in memory is what counts here, not
the spaces: `userTarget` is the page that a level-2 entry opens to everyone. In every state
that is reached such a page is on the page list of its own mapping, is the target of one
entry only, and holds no table (`Mmu.Sound`). A call for one pid is not noticed by another,
and what was taken for a pid goes back, each block once (`Mmu.Isolated`).

Tables are read and written as memory. That the kernel can do so relies on the window it
runs in, `0x60000000` to `0x69000000`, and on the devices at `0x10000000`. The callers of
`mmu_alloc` leave both alone: segments and heap end below `0x10000000`, the stack is between
`0x58000000` and `0x60000000`. A request for addresses of the window is a step here too, and
for that one the walk over memory says nothing about what the kernel itself reads afterwards.
-/

namespace Cyanurus

open Bytes Slab Lts Buddy

/-- The calls, and what the rest of the kernel does to memory. -/
inductive MmuAct where
  | setTtb (pid : Int)
  | alloc (pid : Int) (addr size : UInt32)
  | destroy (pid : Int)
  | other (act : Slab.Act)

/-- The steps. A call that halts is not a step, and only a pid that has a mapping is destroyed. -/
inductive MmuStep : Mmu → MmuAct → Mmu → Prop where
  | setTtb {s s' : Mmu} {pid r : Int} : s.mmuSetTtb pid = .ok (r, s') → MmuStep s (.setTtb pid) s'
  | alloc {s s' : Mmu} {pid r : Int} {addr size : UInt32} :
      s.mmuAlloc pid addr.toNat size.toNat = .ok (r, s') → MmuStep s (.alloc pid addr size) s'
  | destroy {s s' : Mmu} {pid r : Int} {mp : Nat} :
      s.find pid = some mp → s.mmuDestroy pid = .ok (r, s') → MmuStep s (.destroy pid) s'
  | other {s : Mmu} {a : Slab.Act} {w : World} :
      Slab.Step s.world a w → s.Foreign s.mappings a → MmuStep s (.other a) { s with world := w }

/-- What the level-2 entry for the virtual page `v` points to, if it lets everyone in. -/
def userTarget (m : Bytes) (ttb v : Nat) : Option Nat :=
  match lookupEntry m ttb (4096 * v) with
  | none => none
  | some l2 => if entryAccess l2 = .full then some (l2 / 4096 * 4096) else none

namespace Mmu

/-- The page list of a mapping. -/
def pageList (s : Mmu) (mp : Nat) : List Nat :=
  walk s.world.heap.buddy.next pageNum (s.mapping mp).pageHead

/-- The page that a mapping opens to everyone at `v`. -/
def target (s : Mmu) (mp v : Nat) : Option Nat := userTarget s.mem (s.mapping mp).address v

/-- What holds of the tables in every state. -/
structure Sound (s : Mmu) : Prop where
  /-- The page list of a mapping is the list of the blocks taken for it. -/
  list : ∀ {mp}, mp ∈ s.mappings → s.pageList mp = s.owned mp
  /-- What an entry opens to everyone is a page of the pool, allocated to its own mapping. -/
  own : ∀ {mp v a}, mp ∈ s.mappings → v < 2 ^ 20 → s.target mp v = some a →
    ∃ p ∈ s.pageList mp, a = pageAddress p ∧ p < pageNum ∧ (s.world.heap.buddy.pages p).firstPage = true
  /-- No page is opened by two mappings, or at two places of one. -/
  once : ∀ {mp mq v w a}, mp ∈ s.mappings → mq ∈ s.mappings → v < 2 ^ 20 → w < 2 ^ 20 →
    s.target mp v = some a → s.target mq w = some a → mp = mq ∧ v = w
  /-- It is not part of a level-1 table. -/
  notL1 : ∀ {mp mq v a}, mp ∈ s.mappings → mq ∈ s.mappings → v < 2 ^ 20 → s.target mp v = some a →
    Apart a pageSize (s.mapping mq).address l1Size
  /-- It is not part of a level-2 table. -/
  notL2 : ∀ {mp mq v a i}, mp ∈ s.mappings → mq ∈ s.mappings → v < 2 ^ 20 → s.target mp v = some a →
    i < l1EntryNum → s.mem.load 4 ((s.mapping mq).address + 4 * i) % 4 = flPageTable →
    Apart a pageSize (s.mem.load 4 ((s.mapping mq).address + 4 * i) / 1024 * 1024) l2Size

/-- What holds of the calls in every state. -/
structure Isolated (s : Mmu) : Prop extends s.Sound where
  /-- `mmu_alloc` for one pid changes no translation of another. -/
  alloc : ∀ {pid q r : Int} {addr size : UInt32} {s' : Mmu},
    s.mmuAlloc pid addr.toNat size.toNat = .ok (r, s') → q ≠ pid → ∀ {va}, va < 2 ^ 32 →
    s'.translateOf q va = s.translateOf q va
  /-- `mmu_destroy` gives back what was taken for the pid, and nothing else, each block once. -/
  destroy : ∀ {pid r : Int} {mp : Nat} {s' : Mmu}, s.find pid = some mp → s.mmuDestroy pid = .ok (r, s') →
    ∃ s₁ r₀, s.mmuSetTtb 0 = .ok (r₀, s₁) ∧ (s.owned mp).Nodup
      ∧ s₁.world.other.Perm (s.owned mp ++ s'.world.other)
      ∧ ∀ x, (s'.world.heap.buddy.pages x).firstPage = true ↔
          x ∉ s.owned mp ∧ (s₁.world.heap.buddy.pages x).firstPage = true
  /-- The calls return unless memory runs out. -/
  returns : ∀ {e}, (∃ pid, s.mmuSetTtb pid = .error e)
    ∨ (∃ pid, ∃ addr size : UInt32, s.mmuAlloc pid addr.toNat size.toNat = .error e)
    ∨ (∃ pid mp, s.find pid = some mp ∧ s.mmuDestroy pid = .error e) → e = .outOfMemory

variable {s s' : Mmu} {ms : List Nat} {G : Nat → Space} {sp : Space} {mp mq p q v a : Nat} {w : World}
variable {V : Int → Option Space} {n vectors : Nat}

/-! ## What the walk finds -/

/-- An entry lets everyone in where the space has a page of the process. -/
theorem Held.target (h : s.Held mp sp) (hv : v < 2 ^ 20) :
    s.target mp v = (sp.pageAt (.user v)).map pageAddress := by
  unfold Mmu.target userTarget
  rw [h.address, h.tables.lookup (by omega), show 4096 * v / 2 ^ 12 = v by omega]
  cases htab : sp.table (4096 * v / 2 ^ 20) with
  | none =>
    have hl := h.space.bare (v := v) (by rw [show v / 256 = 4096 * v / 2 ^ 20 by omega]; exact htab)
    rw [Space.pageAt_bare (by simp [hl])]
    rfl
  | some t =>
    rw [Option.map_some]
    dsimp only
    cases hl : sp.leaf v with
    | none =>
      rw [Space.pageAt_bare (by simp [hl])]
      rfl
    | kernel b =>
      rw [show (Leaf.kernel b).word = b + 0x12 from rfl, entryAccess_kernel (h.space.aligned hl),
        Space.pageAt_bare (by simp [hl])]
      rfl
    | user p =>
      have hd := Shows.page_dvd p
      rw [show (Leaf.user p).word = pageAddress p + 0x32 from rfl, entryAccess_user, if_pos rfl,
        show (pageAddress p + 0x32) / 4096 * 4096 = pageAddress p by omega, Space.pageAt_user hl]
      rfl

theorem Held.target_some (h : s.Held mp sp) (hv : v < 2 ^ 20) (ht : s.target mp v = some a) :
    ∃ p, sp.pageAt (.user v) = some p ∧ pageAddress p = a := by
  rw [h.target hv] at ht
  exact Option.map_eq_some_iff.mp ht

/-- Two pages of mappings in use do not overlap. -/
theorem Inv.apart (hi : s.Inv ms G) (hp : p ∈ s.world.other) (hq : q ∈ s.world.other) (hne : p ≠ q)
    (hn : n ≤ 2 ^ (s.world.heap.buddy.pages q).order * pageSize) :
    Apart (pageAddress p) pageSize (pageAddress q) n := by
  obtain ⟨fl, fc, cp, hw⟩ := hi.heap
  have hap := hw.page_apart hp hq hne
  have hle := pageSize_le (s.world.heap.buddy.pages p).order
  unfold Apart at *
  omega

/-- A page of the process in one mapping is not in another place of any mapping. -/
theorem Inv.place_ne (hi : s.Inv ms G) (hmp : mp ∈ ms) (hmq : mq ∈ ms) {slot slot' : Space.Slot}
    (hp : (G mp).pageAt slot = some p) (hq : (G mq).pageAt slot' = some p) : mp = mq ∧ slot = slot' := by
  have hpo := (hi.held hmp).space.held hp
  obtain rfl := hi.disjoint hmp hmq hpo ((hi.held hmq).space.held hq)
  exact ⟨rfl, (hi.held hmp).space.once hp hq⟩

/-- **The tables are sound whenever they spell out spaces.** -/
theorem Inv.sound (hi : s.Inv s.mappings G) : s.Sound := by
  have hlist : ∀ {mp}, mp ∈ s.mappings → s.pageList mp = s.owned mp := fun hmp => by
    have hh := hi.held hmp
    exact hh.chain.walk_eq (length_le_pageNum hh.nodup fun p hp => hi.page_lt (hh.other hp))
  refine ⟨hlist, fun {mp v a} hmp hv ht => ?_, fun {mp mq v w a} hmp hmq hv hw ht ht' => ?_,
    fun {mp mq v a} hmp hmq hv ht => ?_, fun {mp mq v a i} hmp hmq hv ht hin hword => ?_⟩
  · obtain ⟨p, hp, rfl⟩ := (hi.held hmp).target_some hv ht
    have hpo := (hi.held hmp).space.held hp
    obtain ⟨fl, fc, cp, hw⟩ := hi.heap
    have hother := (hi.held hmp).other hpo
    exact ⟨p, by rw [hlist hmp]; exact hpo, rfl, hi.page_lt hother, hw.allocated p (mem_pages_other hother)⟩
  · obtain ⟨p, hp, rfl⟩ := (hi.held hmp).target_some hv ht
    obtain ⟨q, hq, heq⟩ := (hi.held hmq).target_some hw ht'
    obtain rfl : q = p := by
      unfold pageAddress pageSize at heq
      omega
    obtain ⟨he, hslot⟩ := hi.place_ne hmp hmq hp hq
    exact ⟨he, Space.Slot.user.inj hslot⟩
  · obtain ⟨p, hp, rfl⟩ := (hi.held hmp).target_some hv ht
    have hq := hi.held hmq
    have hroot : (G mq).pageAt .root = some (G mq).root := rfl
    rw [hq.address]
    refine hi.apart ((hi.held hmp).other ((hi.held hmp).space.held hp)) (hq.other (hq.space.held hroot)) ?_ hq.size
    intro he
    have := (hi.place_ne hmp hmq hp (he ▸ hroot)).2
    cases this
  · obtain ⟨p, hp, rfl⟩ := (hi.held hmp).target_some hv ht
    have hq := hi.held hmq
    rw [hq.address, hq.tables.l1 hin] at hword ⊢
    cases htab : (G mq).table i with
    | none =>
      rw [htab] at hword
      cases hword
    | some t =>
      have htable : (G mq).pageAt (.table i) = some t := htab
      have hd := Shows.page_dvd t
      rw [show tableWord (some t) = pageAddress t + 1 from rfl,
        show (pageAddress t + 1) / 1024 * 1024 = pageAddress t by omega]
      refine hi.apart ((hi.held hmp).other ((hi.held hmp).space.held hp))
        (hq.other (hq.space.held htable)) ?_ ?_
      · intro he
        have := (hi.place_ne hmp hmq hp (he ▸ htable)).2
        cases this
      · have := pageSize_le (s.world.heap.buddy.pages t).order
        have : l2Size ≤ pageSize := by decide
        omega

/-- The calls keep to themselves whenever the tables spell out spaces. -/
theorem Spaces.isolated (h : s.Spaces V) : s.Isolated := by
  obtain ⟨G, hi, hV⟩ := id h
  refine ⟨hi.sound, fun {pid q r addr size s'} hr hq va hva => ?_, fun {pid r mp s'} hf hr => ?_, ?_⟩
  · obtain ⟨sp, sp', h', _⟩ := h.alloc addr.toNat_lt hr
    rw [h'.translateOf hva, h.translateOf hva, Function.update_of_ne hq]
  · cases hset : s.mmuSetTtb 0 with
    | error e =>
      unfold mmuDestroy at hr
      rw [hf] at hr
      simp only [hset] at hr
      cases hr
    | ok x =>
      obtain ⟨r₀, s₁⟩ := x
      obtain ⟨sp, w, hd, _, _, _, _, hrel⟩ := h.destroy hf hset
      rw [hr] at hd
      cases hd
      rw [blocks_some hf] at hrel
      exact ⟨s₁, r₀, rfl, (hi.held (find_some hf).1).nodup, hrel.other, fun x => hrel.first⟩
  · rintro e (⟨pid, hr⟩ | ⟨pid, addr, size, hr⟩ | ⟨pid, mp, hf, hr⟩)
    · exact ((hi.setTtb_costs pid).error hr).1
    · exact ((hi.alloc_costs pid addr.toNat_lt).error hr).1
    · cases hset : s.mmuSetTtb 0 with
      | error e' =>
        unfold mmuDestroy at hr
        rw [hf] at hr
        simp only [hset] at hr
        obtain rfl := Except.error.inj hr
        exact ((hi.setTtb_costs 0).error hset).1
      | ok x =>
        obtain ⟨sp, w, hd, _⟩ := h.destroy hf hset
        rw [hr] at hd
        cases hd

/-! ## Runs -/

/-- **A step keeps the spaces.** -/
theorem Spaces.step (h : s.Spaces V) {act : MmuAct} (hs : MmuStep s act s') : ∃ V', s'.Spaces V' := by
  cases hs with
  | setTtb hr =>
    obtain ⟨sp, h', _⟩ := h.setTtb hr
    exact ⟨_, h'⟩
  | @alloc _ pid r addr size hr =>
    obtain ⟨sp, sp', h', _⟩ := h.alloc addr.toNat_lt hr
    exact ⟨_, h'⟩
  | destroy hf hr =>
    cases hset : s.mmuSetTtb 0 with
    | error e =>
      unfold mmuDestroy at hr
      rw [hf] at hr
      simp only [hset] at hr
      cases hr
    | ok x =>
      obtain ⟨sp, w, hd, _, _, _, h', _⟩ := h.destroy hf hset
      rw [hr] at hd
      cases hd
      exact ⟨_, h'⟩
  | other hw hforeign =>
    obtain ⟨G, hi, hV⟩ := h
    exact ⟨V, G, hi.foreign hw hforeign, hV⟩

/-- The tables before the first mapping is made. -/
theorem inv_bare {c : Nat} (hw : ∃ fl fc cp, Slab.Inv w fl fc cp) (hc : c ∈ w.created)
    (hs : (w.heap.caches c).slabSize ≤ 4 * pageSize) (G : Nat → Space) :
    Inv ⟨w, c, fun _ => {}, [], 0, 0, vectors, fun _ => []⟩ [] G :=
  ⟨hw, hc, hs, List.nodup_nil, by simp, by simp, by simp⟩

/-- `mmu_init` up to the call of `mmu_set_ttb`. -/
theorem mmuInit_ok (vectors : Nat) (hw : ∃ fl fc cp, Slab.Inv w fl fc cp) {r : Option Nat}
    {t : Heap} (h : slabCacheCreate w.heap [109, 97, 112, 112, 105, 110, 103] mappingBytes = .ok (r, t)) :
    ∃ c, r = some c ∧ Inv ⟨{ w with heap := t, created := c :: w.created }, c, fun _ => {}, [], 0, 0, vectors,
      fun _ => []⟩ [] fun _ => Space.empty 0 := by
  obtain ⟨fl, fc, cp, hw⟩ := hw
  obtain ⟨c, rfl, hs⟩ := slabCacheCreate_small (by decide) (by decide) (by decide) h
  refine ⟨c, rfl, inv_bare ?_ (List.mem_cons_self ..) ?_ _⟩
  · exact Slab.inv_step hw (.create (by decide) (by decide) h)
  · rw [hs]
    decide

/-- **`mmu_init` makes the mapping of pid 0.** -/
theorem mmuInit_spaces (hw : ∃ fl fc cp, Slab.Inv w fl fc cp)
    (h : mmuInit w vectors = .ok s) :
    ∃ sp, s.Spaces (Function.update (fun _ => none) 0 (some sp)) ∧ Fetch none sp
      ∧ s.ttbr = pageAddress sp.root ∧ s.currentPid = 0 := by
  obtain ⟨⟨r, t⟩, hc, h⟩ := bind_eq_ok h
  obtain ⟨⟨r₀, s₁⟩, hset, h⟩ := bind_eq_ok h
  cases h
  obtain ⟨c, rfl, hi⟩ := mmuInit_ok vectors hw hc
  have hsp : Spaces _ fun _ => none := ⟨_, hi, fun pid => rfl⟩
  obtain ⟨sp, h', _, hfetch, httbr, hcur, _⟩ := hsp.setTtb hset
  exact ⟨sp, h', hfetch, httbr, hcur⟩

theorem mmuInit_costs (vectors : Nat) (hw : ∃ fl fc cp, Slab.Inv w fl fc cp) :
    Costs w.heap.buddy (1 + newCost) (fun s : Mmu => s.world.heap.buddy) (mmuInit w vectors) := by
  obtain ⟨fl, fc, cp, hw'⟩ := id hw
  refine (hw'.create_costs _ _).bind fun ⟨r, t⟩ hc => ?_
  obtain ⟨c, rfl, hi⟩ := mmuInit_ok vectors hw hc
  exact (hi.setTtb_costs 0).bind (j := 0) fun _ _ => .nothing id

/--
**Address-space isolation.** The kernel has run for a while, then `mmu_init` and any calls
for any pids.
-/
theorem mmu_isolated {m : Bytes} {caches : Nat → SlabCache} {pre : List Slab.Act} {w : World} {vectors : Nat}
    {s₀ s : Mmu} {acts : List MmuAct} (hpre : Run Slab.Step (Slab.start m caches) pre w)
    (hinit : mmuInit w vectors = .ok s₀) (hrun : Run MmuStep s₀ acts s) : s.Isolated := by
  obtain ⟨sp, h₀, _⟩ := mmuInit_spaces (Slab.inv_run hpre) hinit
  obtain ⟨V, hV⟩ := hrun.invariant (I := fun s => ∃ V, s.Spaces V) ⟨_, h₀⟩ fun _ _ _ ⟨_, h⟩ hs => h.step hs
  exact hV.isolated

/-- With room for a new mapping and some pages `mmu_alloc` returns. -/
theorem Spaces.alloc_returns (h : s.Spaces V) (pid : Int) (addr size : UInt32)
    (hn : s.world.heap.buddy.Room (newCost + (1 + getPageSize size.toNat) + n)) :
    ∃ r s', s.mmuAlloc pid addr.toNat size.toNat = .ok (r, s') ∧ s'.world.heap.buddy.Room n := by
  obtain ⟨G, hi, _⟩ := h
  obtain ⟨⟨r, s'⟩, hr, hroom⟩ := (hi.alloc_costs pid addr.toNat_lt).returns hn
  exact ⟨r, s', hr, hroom⟩

theorem Spaces.setTtb_returns (h : s.Spaces V) (pid : Int)
    (hn : s.world.heap.buddy.Room (newCost + n)) :
    ∃ r s', s.mmuSetTtb pid = .ok (r, s') ∧ s'.world.heap.buddy.Room n := by
  obtain ⟨G, hi, _⟩ := h
  obtain ⟨⟨r, s'⟩, hr, hroom⟩ := (hi.setTtb_costs pid).returns hn
  exact ⟨r, s', hr, hroom⟩

/-- Two pids get a page at one address, and the first of them goes. -/
theorem mmu_isolated_two_pids : ∃ s₀ s : Mmu, ∃ mp a : Nat,
    mmuInit (Slab.start (fun _ => 0) fun _ => {}) 0x60000000 = .ok s₀
      ∧ Run MmuStep s₀ [.alloc 1 0x8000 0x1000, .alloc 2 0x8000 0x1000, .destroy 1] s
      ∧ s.find 2 = some mp ∧ s.target mp 8 = some a ∧ s.Isolated := by
  have hstart : ∃ fl fc cp, Slab.Inv (Slab.start (fun _ => 0) fun _ => {}) fl fc cp :=
    ⟨_, _, _, Slab.inv_start _ _ fun _ => []⟩
  obtain ⟨s₀, hinit, hroom⟩ := (mmuInit_costs 0x60000000 hstart).returns (n := 1000)
    (room_init.mono (by decide))
  obtain ⟨sp₀, h₀, _⟩ := mmuInit_spaces hstart hinit
  obtain ⟨r₁, s₁, hr₁, hroom⟩ := h₀.alloc_returns 1 0x8000 0x1000 (n := 500) (hroom.mono (by decide))
  obtain ⟨sp₁, sp₁', h₁, _⟩ := h₀.alloc (UInt32.toNat_lt _) hr₁
  obtain ⟨r₂, s₂, hr₂, hroom⟩ := h₁.alloc_returns 2 0x8000 0x1000 (n := 200) (hroom.mono (by decide))
  obtain ⟨sp₂, sp₂', h₂, _, _, _, _, _, hres⟩ := h₁.alloc (UInt32.toNat_lt _) hr₂
  obtain ⟨_, _, hmap⟩ := hres.resolve_left fun hneg => absurd hneg.2.2 (by decide)
  obtain ⟨p, hp, _⟩ := hmap.inside (w := 8) (by decide) (by decide)
  obtain ⟨mp₁, hf₁, _⟩ := h₂.held 1 ((Function.update_of_ne (by decide) _ _).trans (Function.update_self ..))
  obtain ⟨r, s₂', hset, _⟩ := h₂.setTtb_returns 0 (n := 0) (hroom.mono (by decide))
  obtain ⟨sp, w, hd, _, _, _, h₃, _⟩ := h₂.destroy hf₁ hset
  obtain ⟨mp₂, hf₂, _, hheld⟩ := h₃.held 2 ((Function.update_of_ne (by decide) _ _).trans
    ((Function.update_of_ne (by decide) _ _).trans (Function.update_self ..)))
  have hrun : Run MmuStep s₀ [.alloc 1 0x8000 0x1000, .alloc 2 0x8000 0x1000, .destroy 1] _ :=
    ((Run.nil.snoc (.alloc hr₁)).snoc (.alloc hr₂)).snoc (.destroy hf₁ hd)
  refine ⟨s₀, _, mp₂, pageAddress p, hinit, hrun, hf₂, ?_, mmu_isolated .nil hinit hrun⟩
  rw [hheld.target (by decide), Space.pageAt_user hp]
  rfl

end Mmu

end Cyanurus
