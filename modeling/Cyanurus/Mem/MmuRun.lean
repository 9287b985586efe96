import Mathlib.Data.List.Find
import Cyanurus.Lib.Run
import Cyanurus.Mem.MmuProof

/-!
# The calls of the memory-management unit

`mmu_set_ttb`, `mmu_alloc` and `mmu_destroy`, by pid. `Spaces s V` says that the tables
spell out the space `V pid` for every pid that has a mapping; each call changes the space
of its own pid, and writes to and takes blocks of that pid only (`Call`).

Each call also has a cost, the number of blocks it may take; with room for that many it
returns.
-/

namespace Cyanurus

open Bytes Slab Lts Buddy

namespace Mmu

variable {s s' : Mmu} {ms : List Nat} {G : Nat → Space} {sp : Space} {mp mq p q size : Nat} {w : World}

/-! ## What the calls cost -/

/-- The page table that a call leaves. -/
def buddy {α : Type} (r : α × Mmu) : Buddy := r.2.world.heap.buddy

theorem Inv.takePage_costs (hi : s.Inv ms G) (hs : size ≤ 4 * pageSize) :
    Costs s.world.heap.buddy 1 buddy (s.takePage mp size) := by
  obtain ⟨fl, fc, cp, hw⟩ := hi.heap
  exact (hw.pageAlloc_costs hs).bind (j := 0) fun r _ => .nothing fun hr => hr.setNext _

theorem Inv.createTable_costs (hi : s.Inv ms G) (hs : size ≤ 4 * pageSize) :
    Costs s.world.heap.buddy 1 buddy (s.createTable mp size) :=
  (hi.takePage_costs hs).bind (j := 0) fun _ _ => .nothing id

theorem Inv.fillPl2_costs (hi : s.Inv ms G) (i : Nat) :
    Costs s.world.heap.buddy 1 buddy (s.mmuCreateAndFillPl2 mp i) := by
  unfold mmuCreateAndFillPl2
  dsimp only
  split
  · exact (hi.createTable_costs (by decide)).bind (j := 0) fun _ _ => .nothing id
  · exact Costs.mono (k := 0) (.nothing id) (Nat.zero_le 1)

theorem Inv.createPage_costs (hi : s.Inv ms G) :
    Costs s.world.heap.buddy 1 buddy (s.mmuCreatePage mp) :=
  (hi.takePage_costs (by decide)).bind (j := 0) fun _ _ => .nothing id

theorem Inv.mappingLoop_costs {i t : Nat} : ∀ {n j : Nat} {s : Mmu} {G : Nat → Space}, s.Inv ms G → mp ∈ ms →
    (G mp).table i = some t → j + n ≤ l2EntryNum →
    Costs s.world.heap.buddy n (fun s' : Mmu => s'.world.heap.buddy)
      (Mmu.mappingLoop mp (pageAddress t) apFullAccess n j s) := by
  intro n
  induction n with
  | zero =>
    intro j s G _ _ _ _
    exact .nothing id
  | succ n ih =>
    intro j s G hi hmp ht hj
    refine Costs.mono (k := 1 + n) (hi.createPage_costs.bind fun ⟨a, s₁⟩ h1 => ?_) (by omega)
    obtain ⟨⟨p, s₀⟩, h0, h1⟩ := bind_eq_ok h1
    cases h1
    obtain ⟨hi1, _⟩ := hi.mapPage (j := j) hmp ht (by omega) h0 rfl
    exact ih (j := j + 1) hi1 hmp (by rw [Function.update_self]; exact ht) (by omega)

/-- `mmu_create_mapping` takes a block for each page and one for a table. -/
theorem Inv.createMapping_costs (hi : s.Inv ms G) (hmp : mp ∈ ms) {addr : Nat} (haddr : addr < 2 ^ 32) :
    Costs s.world.heap.buddy (1 + getPageSize size) buddy (s.mmuCreateMapping mp addr size false) := by
  unfold mmuCreateMapping
  rw [getL1Index_eq, getL2Index_eq]
  split
  · exact Costs.mono (k := 0) (.nothing id) (Nat.zero_le _)
  · refine (hi.fillPl2_costs _).bind fun ⟨pl2, s₁⟩ h1 => ?_
    obtain ⟨sp, t, hi1, _, ht, rfl, _⟩ := hi.fillPl2 hmp (by unfold l1EntryNum; omega) h1
    exact (Inv.mappingLoop_costs (n := getPageSize size) (j := addr / 2 ^ 12 % 256) hi1 hmp
      (by rw [Function.update_self]; exact ht) (by omega)).bind (j := 0)
      fun _ _ => .nothing id

theorem Inv.straight_costs (hi : s.Inv ms G) (addr size : Nat) :
    Costs s.world.heap.buddy 1 buddy (s.mmuCreateStraightMapping mp addr size) := by
  unfold mmuCreateStraightMapping
  split
  · exact Costs.mono (k := 0) (.nothing id) (Nat.zero_le _)
  · exact (hi.fillPl2_costs _).bind (j := 0) fun _ _ => .nothing id

theorem Inv.windowLoop_costs : ∀ {n i : Nat} {s : Mmu} {G : Nat → Space}, s.Inv ms G → mp ∈ ms →
    i + n ≤ 0x90 → Costs s.world.heap.buddy n (fun s' : Mmu => s'.world.heap.buddy) (Mmu.windowLoop mp n i s) := by
  intro n
  induction n with
  | zero =>
    intro i s G _ _ _
    exact .nothing id
  | succ n ih =>
    intro i s G hi hmp hin
    refine Costs.mono (k := 1 + n) ((hi.straight_costs _ _).bind fun ⟨r, s₁⟩ h1 => ?_) (by omega)
    have hsize : getPageSize 0x100000 = 256 := by decide
    obtain ⟨sp, hi1, _⟩ := hi.straight hmp (by omega) (by omega) (by unfold l2EntryNum; omega) h1
    exact ih (i := i + 1) hi1 hmp (by omega)

theorem Inv.kernelMappings_costs (hi : s.Inv ms G) (hmp : mp ∈ ms) :
    Costs s.world.heap.buddy 148 (fun s' : Mmu => s'.world.heap.buddy) (s.mmuCreateKernelMappings mp) := by
  have hvectors : Costs s.world.heap.buddy 2 (fun s' : Mmu => s'.world.heap.buddy) (s.mmuCreateVectorsMapping mp) := by
    refine (hi.fillPl2_costs _).bind (j := 1) fun ⟨pl2, s₁⟩ h1 => ?_
    obtain ⟨sp, t, hi1, _⟩ := hi.fillPl2 hmp (by decide) h1
    exact hi1.createPage_costs.bind (j := 0) fun _ _ => .nothing id
  refine hvectors.bind (j := 146) fun s₁ h1 => ?_
  obtain ⟨_, _, hi1, _⟩ := hi.vectors hmp h1
  refine Costs.bind (k := 144) (j := 2) (Inv.windowLoop_costs (i := 0) hi1 hmp (by decide)) fun s₂ h2 => ?_
  obtain ⟨_, hi2, _⟩ := Inv.windowLoop hi1 hmp (by decide) h2
  refine (hi2.straight_costs _ _).bind (j := 1) fun ⟨r3, s₃⟩ h3 => ?_
  obtain ⟨_, hi3, _⟩ := hi2.straight hmp (by decide) (by decide) (by decide) h3
  exact (hi3.straight_costs _ _).bind (j := 0) fun _ _ => .nothing id

/-- The blocks of a new mapping: a slab for the record, the level-1 table, and what the kernel shows. -/
def newCost : Nat := 150

theorem Inv.fetch_costs (hi : s.Inv s.mappings G) (pid : Int) :
    Costs s.world.heap.buddy newCost buddy (s.mmuMappingFetch pid) := by
  obtain ⟨fl, fc, cp, hw⟩ := hi.heap
  unfold mmuMappingFetch
  cases hf : s.find pid with
  | some mp => exact Costs.mono (k := 0) (.nothing id) (Nat.zero_le _)
  | none =>
    refine (hw.cacheAlloc_costs hi.slab).bind (j := 149) fun ⟨mp, w⟩ ha => ?_
    obtain ⟨_, hi0⟩ := hi.newRecord pid ha
    refine (hi0.createTable_costs (by decide)).bind (j := 148) fun ⟨a, s₁⟩ h1 => ?_
    obtain ⟨p, _, _, hi1⟩ := hi.newTable hf ha h1
    exact (hi1.kernelMappings_costs (List.mem_cons_self ..)).bind (j := 0) fun _ _ => .nothing id

theorem Inv.setTtb_costs (hi : s.Inv s.mappings G) (pid : Int) :
    Costs s.world.heap.buddy newCost buddy (s.mmuSetTtb pid) :=
  (hi.fetch_costs pid).bind (j := 0) fun _ _ => .nothing id

theorem Inv.alloc_costs (hi : s.Inv s.mappings G) (pid : Int) {addr : Nat} (haddr : addr < 2 ^ 32) :
    Costs s.world.heap.buddy (newCost + (1 + getPageSize size)) buddy (s.mmuAlloc pid addr size) := by
  refine (hi.fetch_costs pid).bind fun ⟨mp, s₁⟩ h => ?_
  cases hf : s.find pid with
  | some mp' =>
    unfold mmuMappingFetch at h
    rw [hf] at h
    cases h
    exact hi.createMapping_costs (find_some hf).1 haddr
  | none =>
    obtain ⟨hfetched, sp, p, hi1, _⟩ := hi.newMapping hf h
    refine hi1.createMapping_costs ?_ haddr
    rw [hfetched.rest]
    exact List.mem_cons_self ..

/-! ## Pids -/

/-- The blocks of a pid. -/
def blocks (s : Mmu) (pid : Int) : List Nat :=
  match s.find pid with
  | none => []
  | some mp => s.owned mp

/-- What an address means to a pid. -/
def translateOf (s : Mmu) (pid : Int) (va : Nat) : Option (Nat × Access) :=
  (s.find pid).bind fun mp => translate s.mem (s.mapping mp).address va

/-- The spaces of the pids. -/
def Spaces (s : Mmu) (V : Int → Option Space) : Prop :=
  ∃ G, s.Inv s.mappings G ∧ ∀ pid, V pid = (s.find pid).map G

theorem Spaces.translateOf {V : Int → Option Space} (h : s.Spaces V) {pid : Int} {va : Nat}
    (hva : va < 2 ^ 32) : s.translateOf pid va = (V pid).bind fun sp => sp.translate va := by
  obtain ⟨G, hi, hV⟩ := h
  unfold Mmu.translateOf
  rw [hV]
  cases hf : s.find pid with
  | none => rfl
  | some mp =>
    have hh := hi.held (find_some hf).1
    show translate s.mem (s.mapping mp).address va = (G mp).translate va
    rw [hh.address]
    exact hh.tables.translate hh.space hva

/-- A pid that has a space has a mapping, whose tables spell it out. -/
theorem Spaces.held {V : Int → Option Space} (h : s.Spaces V) (pid : Int) (hV : V pid = some sp) :
    ∃ mp, s.find pid = some mp ∧ mp ∈ s.mappings ∧ s.Held mp sp := by
  obtain ⟨G, hi, hG⟩ := h
  rw [hG] at hV
  obtain ⟨mp, hf, rfl⟩ := Option.map_eq_some_iff.mp hV
  exact ⟨mp, hf, (find_some hf).1, hi.held (find_some hf).1⟩

/-- A call that may only take blocks for a pid and write to blocks of that pid. -/
structure Call (pid : Int) (s s' : Mmu) : Prop
    extends Takes s.world (s.blocks pid) s'.world (s'.blocks pid) where
  cache : s'.mappingCache = s.mappingCache
  blocks : ∀ {q}, q ≠ pid → s'.blocks q = s.blocks q
  live : ∀ {x}, x ∈ s.world.live → x ∈ s'.world.live

theorem Call.refl (pid : Int) (s : Mmu) : Call pid s s := ⟨.refl _ _, rfl, fun _ => rfl, id⟩

theorem Call.trans {pid : Int} {s'' : Mmu} (h : Call pid s s') (h' : Call pid s' s'') : Call pid s s'' :=
  ⟨h.toTakes.trans h'.toTakes, h'.cache.trans h.cache, fun hq => (h'.blocks hq).trans (h.blocks hq),
    fun hx => h'.live (h.live hx)⟩

theorem blocks_some {pid : Int} (h : s.find pid = some mp) : s.blocks pid = s.owned mp := by
  unfold blocks
  rw [h]

theorem Own.find (h : Own mp s s') (pid : Int) : s'.find pid = s.find pid := by
  unfold Mmu.find
  rw [h.mappings]
  refine List.find?_congr fun mq _ => ?_
  by_cases he : mq = mp
  · rw [he, h.record.1]
  · rw [h.mapping he]

/-- A call for the mapping of a pid. -/
theorem Own.call {pid : Int} (h : Own mp s s') (hf : s.find pid = some mp) : Call pid s s' := by
  have hf' : s'.find pid = some mp := (h.find pid).trans hf
  refine ⟨by rw [blocks_some hf, blocks_some hf']; exact h.toTakes, h.cache, fun {q} hq => ?_,
    fun hx => by rw [h.live]; exact hx⟩
  unfold Mmu.blocks
  rw [h.find q]
  cases hfq : s.find q with
  | none => rfl
  | some mq =>
    have hne : mq ≠ mp := by
      rintro rfl
      exact hq ((find_some hfq).2.symm.trans (find_some hf).2)
    exact h.owned hne

theorem Fetched.find {pid : Int} (h : Fetched pid mp s s') (q : Int) :
    s'.find q = if q = pid then some mp else s.find q := by
  have hmap : s'.mappings = mp :: s.mappings := by rw [h.rest]
  unfold Mmu.find
  rw [hmap, List.find?_cons, h.pid]
  by_cases hq : q = pid
  · rw [hq]
    simp
  · rw [if_neg hq, show (pid == q) = false by simpa using Ne.symm hq]
    refine List.find?_congr fun mq hmq => ?_
    rw [h.mapping (ne_of_mem_of_not_mem hmq h.new)]

/-- A new mapping is not noticed by the other pids. -/
theorem Fetched.call {pid : Int} (h : Fetched pid mp s s') (hf : s.find pid = none) : Call pid s s' := by
  have hb : s.blocks pid = [] := by
    unfold Mmu.blocks
    rw [hf]
  have hf' : s'.find pid = some mp := by rw [h.find, if_pos rfl]
  refine ⟨by rw [hb, blocks_some hf']; exact h.toTakes, by rw [h.rest], fun {q} hq => ?_,
    fun hx => by rw [h.live]; exact List.mem_cons_of_mem _ hx⟩
  unfold Mmu.blocks
  rw [h.find, if_neg hq]
  cases hfq : s.find q with
  | none => rfl
  | some mq => exact h.owned (ne_of_mem_of_not_mem (find_some hfq).1 h.new)

/-! ## The calls -/

variable {V : Int → Option Space} {pid : Int}

/-- The space of a pid after `mmu_mapping_fetch`: what it was, or what every new mapping shows. -/
def Fetch (old : Option Space) (sp : Space) : Prop :=
  old = some sp ∨ old = none ∧ ∃ p, ∀ w, sp.leaf w = kernelLeaf (pageAddress p) w

theorem Spaces.fetch (h : s.Spaces V) (hr : s.mmuMappingFetch pid = .ok (mp, s')) :
    ∃ G sp, s'.Inv s'.mappings G ∧ (∀ q, Function.update V pid (some sp) q = (s'.find q).map G)
      ∧ Call pid s s' ∧ s'.find pid = some mp ∧ Fetch (V pid) sp ∧ (V pid = some sp → s' = s)
      ∧ s'.ttbr = s.ttbr ∧ s'.currentPid = s.currentPid := by
  obtain ⟨G, hi, hV⟩ := h
  cases hf : s.find pid with
  | some mp' =>
    unfold mmuMappingFetch at hr
    rw [hf] at hr
    obtain ⟨rfl, rfl⟩ := Prod.mk.inj (Except.ok.inj hr)
    have hsp : V pid = some (G mp') := by rw [hV, hf]; rfl
    refine ⟨G, G mp', hi, fun q => ?_, .refl pid s, hf, Or.inl hsp, fun _ => rfl, rfl, rfl⟩
    rw [← hsp, Function.update_eq_self, hV]
  | none =>
    obtain ⟨hfetched, sp, p, hi1, hleaf⟩ := hi.newMapping hf hr
    have hnone : V pid = none := by rw [hV, hf]; rfl
    refine ⟨_, sp, hi1, fun q => ?_, hfetched.call hf, by rw [hfetched.find, if_pos rfl],
      Or.inr ⟨hnone, p, hleaf⟩, fun he => ?_, by rw [hfetched.rest], by rw [hfetched.rest]⟩
    · rw [hfetched.find]
      by_cases hq : q = pid
      · subst hq
        rw [Function.update_self, if_pos rfl, Option.map_some, Function.update_self]
      · rw [Function.update_of_ne hq, if_neg hq, hV]
        cases hfq : s.find q with
        | none => rfl
        | some mq =>
          rw [Option.map_some, Option.map_some,
            Function.update_of_ne (ne_of_mem_of_not_mem (find_some hfq).1 hfetched.new)]
    · rw [hnone] at he
      cases he

/-- The level-1 table of a mapping starts where the register can point to. -/
theorem Inv.root_aligned (hi : s.Inv ms G) (hmp : mp ∈ ms) :
    pageAddress (G mp).root &&& 0xffffc000 = pageAddress (G mp).root := by
  obtain ⟨fl, fc, cp, hw⟩ := hi.heap
  obtain ⟨ord, free, wf⟩ := hw.pool
  have hh := hi.held hmp
  have hroot := hh.other hh.space.root_mem
  have hlt := Shows.page_lt (hi.page_lt hroot)
  obtain ⟨⟨k, hk⟩, _, _⟩ := wf.firstFlag.mp (hw.allocated _ (mem_pages_other hroot))
  have hsize := hh.size
  rw [wf.order hk (by simp)] at hsize
  -- four pages fit, so the block starts at a multiple of four
  have hk2 : 2 ≤ k := by
    by_contra hlt
    obtain rfl | rfl : k = 0 ∨ k = 1 := by omega
    all_goals
      unfold l1Size l1EntryNum pageSize at hsize
      omega
  have hdvd : 2 ^ 2 ∣ (G mp).root := Nat.dvd_trans (Nat.pow_dvd_pow 2 hk2) (wf.tiling.aligned hk)
  rw [Nat.and_comm]
  refine (and_high (k := 14) (n := 32) (by decide) (by omega)).trans ?_
  unfold pageAddress pageStart pageSize
  omega

/-- **`mmu_set_ttb`.** -/
theorem Spaces.setTtb (h : s.Spaces V) {r : Int} (hr : s.mmuSetTtb pid = .ok (r, s')) :
    ∃ sp, s'.Spaces (Function.update V pid (some sp)) ∧ Call pid s s' ∧ Fetch (V pid) sp
      ∧ s'.ttbr = pageAddress sp.root ∧ s'.currentPid = pid ∧ r = s.currentPid := by
  obtain ⟨⟨mp, s₁⟩, h1, hr⟩ := bind_eq_ok hr
  cases hr
  obtain ⟨G, sp, hi, hV, hcall, hf, hfetch, _, _, hcur⟩ := h.fetch h1
  have hsp : G mp = sp := by
    have := hV pid
    rw [Function.update_self, hf] at this
    exact (Option.some.inj this).symm
  have hmp := (find_some hf).1
  have hi' := hi.relist s₁.mappings pid ((s₁.mapping mp).address &&& 0xffffc000)
  refine ⟨sp, ⟨G, hi', hV⟩, ⟨hcall.toTakes, hcall.cache, hcall.blocks, hcall.live⟩, hfetch, ?_, rfl, hcur⟩
  rw [(hi.held hmp).address, hi.root_aligned hmp, hsp]

/-- A call that writes to tables only leaves the pages of the process alone. -/
theorem Grown.user_bytes {sp' : Space} {owned : List Nat} {v : Nat} (h : Grown mp s sp s' sp')
    (ok : sp'.Ok owned) (hv : sp'.leaf v = .user p) : Agree s.mem s'.mem (pageAddress p) pageSize := by
  have hat := Space.pageAt_user hv
  intro a h1 h2
  refine h.mem ⟨?_, fun {i t} ht => ?_⟩
  · have hap := Shows.root_apart (ok.clear (by simp) hat) (k := pageSize) (Nat.le_refl _)
    unfold Apart at hap
    omega
  · have hne : p ≠ t := by
      rintro rfl
      have htab : sp'.pageAt (.table i) = some p := ht
      have := ok.once hat htab
      cases this
    have hap := Shows.pages_apart hne (n := pageSize) (k := pageSize) (Nat.le_refl _) (Nat.le_refl _)
    unfold Apart at hap
    omega

/-- `n` pages of a space from `v` on are mapped anew, to pages that were not in use. -/
structure Remap (s : Mmu) (v n : Nat) (sp sp' : Space) : Prop where
  root : sp'.root = sp.root
  outside : ∀ {w}, w < v ∨ v + n ≤ w → sp'.leaf w = sp.leaf w
  inside : ∀ {w}, v ≤ w → w < v + n → ∃ p, sp'.leaf w = .user p ∧ p ∉ s.world.other

/-- **`mmu_alloc`.** -/
theorem Spaces.alloc (h : s.Spaces V) {addr : Nat} {r : Int} (haddr : addr < 2 ^ 32)
    (hr : s.mmuAlloc pid addr size = .ok (r, s')) :
    ∃ sp sp', s'.Spaces (Function.update V pid (some sp')) ∧ Call pid s s' ∧ Fetch (V pid) sp
      ∧ s'.ttbr = s.ttbr ∧ s'.currentPid = s.currentPid
      ∧ (V pid = some sp → ∀ {v p}, sp'.leaf v = .user p → Agree s.mem s'.mem (pageAddress p) pageSize)
      ∧ ((r = -1 ∧ sp' = sp ∧ l2EntryNum < addr / 2 ^ 12 % 256 + getPageSize size) ∨
        (r = 0 ∧ addr / 2 ^ 12 % 256 + getPageSize size ≤ l2EntryNum
          ∧ Remap s (addr / 2 ^ 12) (getPageSize size) sp sp')) := by
  obtain ⟨⟨mp, s₁⟩, h1, hr⟩ := bind_eq_ok hr
  obtain ⟨G, sp, hi, hV, hcall, hf, hfetch, hsame, httbr, hcur⟩ := h.fetch h1
  have hmp := (find_some hf).1
  have hsp : G mp = sp := by
    have := hV pid
    rw [Function.update_self, hf] at this
    exact (Option.some.inj this).symm
  rcases hi.createMapping hmp haddr hr with ⟨rfl, rfl, hlt⟩ | ⟨rfl, hle, sp', hi', hm⟩
  · refine ⟨sp, sp, ⟨G, hi, hV⟩, hcall, hfetch, httbr, hcur, fun he {v p} _ => ?_, Or.inl ⟨rfl, rfl, hlt⟩⟩
    rw [hsame he]
    exact .refl _ _ _
  · rw [hsp] at hm
    have hrest : s'.mappings = s₁.mappings := hm.own.mappings
    refine ⟨sp, sp', ⟨_, by rw [hrest]; exact hi', fun q => ?_⟩, hcall.trans (hm.own.call hf), hfetch,
      by rw [hm.own.rest]; exact httbr, by rw [hm.own.rest]; exact hcur, fun he {v p} hv => ?_,
      Or.inr ⟨rfl, hle, hm.more.root, hm.outside, fun h1 h2 => ?_⟩⟩
    · rw [hm.own.find]
      by_cases hq : q = pid
      · subst hq
        rw [Function.update_self, hf, Option.map_some, Function.update_self]
      · rw [Function.update_of_ne hq]
        have hVq := hV q
        rw [Function.update_of_ne hq] at hVq
        rw [hVq]
        cases hfq : s₁.find q with
        | none => rfl
        | some mq =>
          have hne : mq ≠ mp := by
            rintro rfl
            exact hq ((find_some hfq).2.symm.trans (find_some hf).2)
          rw [Option.map_some, Option.map_some, Function.update_of_ne hne]
    · have hh := hi'.held hmp
      rw [Function.update_self] at hh
      rw [← hsame he]
      exact hm.toGrown.user_bytes hh.space hv
    · obtain ⟨p, hp, hfree⟩ := hm.inside h1 h2
      exact ⟨p, hp, fun hp' => hfree (hcall.other.mpr (Or.inl hp'))⟩

/-! ## Giving the blocks back -/

/-- The blocks `l` go back to the page allocator. -/
structure Released (l : List Nat) (w w' : World) : Prop where
  /-- Each was held, and goes back once. -/
  other : w.other.Perm (l ++ w'.other)
  /-- These are the blocks that are not allocated any more. -/
  first : ∀ {x}, (w'.heap.buddy.pages x).firstPage = true ↔
    x ∉ l ∧ (w.heap.buddy.pages x).firstPage = true
  kept : ∀ {q}, q ∈ w.other → q ∉ l → PageKept w.heap w'.heap q
  room : ∀ {n}, w.heap.buddy.Room n → w'.heap.buddy.Room n

theorem Released.nil (w : World) : Released [] w w :=
  ⟨.refl _, by simp, fun _ _ => ⟨rfl, .refl _ _ _⟩, id⟩

theorem Released.append {l l' : List Nat} {w w' w'' : World} (h : Released l w w')
    (h' : Released l' w' w'') : Released (l ++ l') w w'' := by
  refine ⟨?_, fun {x} => ?_, fun {q} hq hn => ?_, fun hr => h'.room (h.room hr)⟩
  · rw [List.append_assoc]
    exact h.other.trans (h'.other.append_left l)
  · rw [h'.first, h.first, List.mem_append, not_or]
    exact ⟨fun ⟨h1, h2, h3⟩ => ⟨⟨h2, h1⟩, h3⟩, fun ⟨⟨h1, h2⟩, h3⟩ => ⟨h2, h1, h3⟩⟩
  · rw [List.mem_append, not_or] at hn
    refine (h.kept hq hn.1).trans (h'.kept ?_ hn.2)
    exact (List.mem_append.mp (h.other.mem_iff.mp hq)).resolve_left hn.1

/-- One round of `release_pages`: the link of the block is cleared and the block freed. -/
theorem Inv.releasePage (hi : s.Inv ms G) (hp : p ∈ s.world.other) (hn : ∀ mq ∈ ms, p ∉ s.owned mq) :
    ∃ w, (s.world.setNext p none).pageFree p = .ok w ∧ Inv { s with world := w } ms G
      ∧ w.live = s.world.live ∧ Released [p] s.world w := by
  obtain ⟨fl, fc, cp, hw⟩ := hi.heap
  have hstep := World.setNext_step hp none
  have hi1 := hi.foreign hstep hn
  obtain ⟨fl1, fc1, cp1, hw1⟩ := Slab.inv_step hw hstep
  have hp1 : p ∈ (s.world.setNext p none).other := hp
  obtain ⟨w, hfree⟩ := hw1.pageFree_ok hp1
  obtain ⟨hstep', hother, hlive⟩ := World.pageFree_step hp1 hfree
  refine ⟨w, hfree, hi1.foreign hstep' hn, hlive, ?_, fun {x} => ?_, fun {q} hq hne => ?_, fun hr => ?_⟩
  · rw [hother]
    exact List.perm_cons_erase hp
  · obtain ⟨ord, free, wf⟩ := hw1.pool
    obtain ⟨b, hb, hfree⟩ := bind_eq_ok hfree
    cases hfree
    obtain ⟨b', _, _, hok, _, hkeep, hback⟩ := Buddy.buddyFree_wf wf (hw1.allocated p (mem_pages_other hp))
    obtain rfl : b = b' := by rw [hb] at hok; exact Except.ok.inj hok
    have hset : x ≠ p → (s.world.setNext p none).heap.buddy.pages x = s.world.heap.buddy.pages x := fun hx =>
      Buddy.setPage_ne s.world.heap.buddy (fun q => { q with next := none }) hx
    rw [List.mem_singleton]
    constructor
    · intro hx
      obtain ⟨hx', hfirst⟩ := hback x hx
      exact ⟨hx', by rwa [hset hx'] at hfirst⟩
    · rintro ⟨hx, hfirst⟩
      rw [← hset hx] at hfirst
      rw [hkeep x hx hfirst]
      exact hfirst
  · have hne : q ≠ p := fun he => hne (List.mem_singleton.mpr he)
    have h1 := hstep.page_kept hw hq (by simp) (by simpa using Ne.symm hne)
    exact h1.2.trans (hstep'.page_kept hw1 h1.1 (by simpa using Ne.symm hne) (by simp)).2
  · exact hw1.pageFree_room hp hfree (hr.setNext none)

/-- `release_pages` for a list of blocks that belong to no mapping in use. -/
theorem Inv.releaseLoop : ∀ {l : List Nat} {fuel : Nat} {head : Option Nat} {s : Mmu}, s.Inv ms G →
    Chain s.world.heap.buddy.next head l → l.Nodup → (∀ p ∈ l, p ∈ s.world.other) →
    (∀ p ∈ l, ∀ mq ∈ ms, p ∉ s.owned mq) → l.length ≤ fuel →
    ∃ w, Mmu.releaseLoop fuel head s = .ok { s with world := w } ∧ Inv { s with world := w } ms G
      ∧ w.live = s.world.live ∧ Released l s.world w := by
  intro l
  induction l with
  | nil =>
    intro fuel head s hi hc _ _ _ _
    obtain rfl : head = none := hc
    exact ⟨s.world, by cases fuel <;> rfl, hi, rfl, .nil _⟩
  | cons p l ih =>
    intro fuel head s hi hc hnd hother hforeign hlen
    obtain ⟨rfl, hc⟩ := hc
    obtain ⟨hp, hnd⟩ := List.nodup_cons.mp hnd
    obtain ⟨fuel, rfl⟩ : ∃ k, fuel = k + 1 := ⟨fuel - 1, by simp at hlen; omega⟩
    obtain ⟨w, hw, hi1, hlive, hrel⟩ := hi.releasePage (hother p (List.mem_cons_self ..))
      (hforeign p (List.mem_cons_self ..))
    -- the rest of the list is held by the mapping, so its links are as before
    have hrest : ∀ q ∈ l, q ∈ s.world.other ∧ q ∉ [p] := fun q hq =>
      ⟨hother q (List.mem_cons_of_mem _ hq), fun he => hp (List.mem_singleton.mp he ▸ hq)⟩
    have hc' : Chain w.heap.buddy.next (s.world.heap.buddy.next p) l := by
      refine hc.congr fun q hq => ?_
      unfold Buddy.next
      rw [(hrel.kept (hrest q hq).1 (hrest q hq).2).page]
    obtain ⟨w', hw', hi2, hlive', hrel'⟩ := ih hi1 hc' hnd
      (fun q hq => (List.mem_append.mp (hrel.other.mem_iff.mp (hrest q hq).1)).resolve_left (hrest q hq).2)
      (fun q hq => hforeign q (List.mem_cons_of_mem _ hq)) (by simp at hlen; omega)
    refine ⟨w', ?_, hi2, hlive'.trans hlive, hrel.append hrel'⟩
    unfold Mmu.releaseLoop
    rw [hw]
    exact hw'

/-- Fewer mappings. -/
theorem Inv.erase (hi : s.Inv ms G) (mp : Nat) : s.Inv (ms.erase mp) G :=
  ⟨hi.heap, hi.cache, hi.slab, hi.nodup.erase mp,
    fun h1 h2 => hi.pids (List.mem_of_mem_erase h1) (List.mem_of_mem_erase h2),
    fun h1 h2 => hi.disjoint (List.mem_of_mem_erase h1) (List.mem_of_mem_erase h2),
    fun h => hi.held (List.mem_of_mem_erase h)⟩

theorem find?_erase {α : Type} [DecidableEq α] {f : α → Bool} {x : α} (hx : f x = false) (l : List α) :
    (l.erase x).find? f = l.find? f := by
  induction l with
  | nil => rfl
  | cons y l ih =>
    by_cases he : y = x
    · subst he
      rw [List.erase_cons_head, List.find?_cons, hx]
    · rw [List.erase_cons_tail (by simpa using he), List.find?_cons, List.find?_cons, ih]

/-- Without its mapping a pid has none, and the other pids have theirs. -/
theorem Inv.find_erase (hi : s.Inv s.mappings G) (hf : s.find pid = some mp) (q : Int) :
    find { s with mappings := s.mappings.erase mp } q = if q = pid then none else s.find q := by
  obtain ⟨hmp, hpid⟩ := find_some hf
  unfold Mmu.find
  by_cases hq : q = pid
  · subst hq
    rw [if_pos rfl, List.find?_eq_none]
    intro mq hmq he
    obtain rfl := hi.pids (List.mem_of_mem_erase hmq) hmp ((eq_of_beq he).trans hpid.symm)
    exact hi.nodup.not_mem_erase hmq
  · rw [if_neg hq]
    exact find?_erase (by simpa [hpid] using Ne.symm hq) _

/-- What `mmu_destroy` does once the tables of pid 0 are in use. -/
theorem Spaces.unmap (h : s.Spaces V) (hf : s.find pid = some mp) :
    ∃ w, (do
        let s₂ ← releasePages { s with mappings := s.mappings.erase mp } mp
        let w ← s₂.world.cacheFree s₂.mappingCache mp
        Except.ok ((0 : Int), { s₂ with world := w }))
      = .ok (0, { s with mappings := s.mappings.erase mp, world := w })
      ∧ Spaces { s with mappings := s.mappings.erase mp, world := w } (Function.update V pid none)
      ∧ Released (s.blocks pid) s.world w := by
  obtain ⟨G, hi, hV⟩ := h
  obtain ⟨hmp, hpid⟩ := find_some hf
  have hh := hi.held hmp
  have hne : ∀ mq ∈ s.mappings.erase mp, mq ≠ mp := fun mq hmq he =>
    hi.nodup.not_mem_erase (he ▸ hmq)
  have hi1 := (hi.erase mp).relist (s.mappings.erase mp) s.currentPid s.ttbr
  obtain ⟨w, hrel, hi2, hlive, hreleased⟩ := hi1.releaseLoop hh.chain hh.nodup
    (fun p hp => hh.other hp)
    (fun p hp mq hmq hp' => hne mq hmq (hi.disjoint (List.mem_of_mem_erase hmq) hmp hp' hp))
    (length_le_pageNum hh.nodup fun p hp => hi.page_lt (hh.other hp))
  obtain ⟨fl, fc, cp, hw⟩ := hi2.heap
  have hmlive : (s.mappingCache, mp) ∈ w.live := by
    rw [hlive]
    exact hh.live
  obtain ⟨w', hfree⟩ := hw.cacheFree_ok hmlive
  obtain ⟨hstep, hother, _⟩ := World.cacheFree_step hmlive hfree
  have hbuddy := hw.cacheFree_room hmlive hfree
  have hi3 := hi2.foreign hstep fun _ hin => hne mp hin rfl
  refine ⟨w', ?_, ⟨G, hi3, fun q => ?_⟩, ?_, fun {x} => ?_, fun {q} hq hn => ?_, fun hr => ?_⟩
  · unfold releasePages
    rw [show (({ s with mappings := s.mappings.erase mp } : Mmu).mapping mp).pageHead
      = (s.mapping mp).pageHead from rfl, hrel]
    show (w.cacheFree s.mappingCache mp >>= fun w => _) = _
    rw [hfree]
    rfl
  · rw [show find { s with mappings := s.mappings.erase mp, world := w' } q
      = find { s with mappings := s.mappings.erase mp } q from rfl, hi.find_erase hf]
    by_cases hq : q = pid
    · rw [if_pos hq, hq, Function.update_self]
      rfl
    · rw [if_neg hq, Function.update_of_ne hq, hV]
  · rw [blocks_some hf, hother]
    exact hreleased.other
  · rw [blocks_some hf, hbuddy]
    exact hreleased.first
  · rw [blocks_some hf] at hn
    have hin := (List.mem_append.mp (hreleased.other.mem_iff.mp hq)).resolve_left hn
    exact (hreleased.kept hq hn).trans (hstep.page_kept hw hin (by simp) (by simp)).2
  · rw [hbuddy]
    exact hreleased.room hr

/-- A pid that has a mapping keeps it when another one gets one. -/
theorem Spaces.setTtb_find (h : s.Spaces V) {r : Int} {q : Int} (hr : s.mmuSetTtb q = .ok (r, s'))
    (hf : s.find pid = some mp) : s'.find pid = some mp ∧ s'.blocks pid = s.blocks pid := by
  obtain ⟨⟨mq, s₁⟩, h1, hr⟩ := bind_eq_ok hr
  cases hr
  obtain ⟨G, hi, hV⟩ := h
  cases hq : s.find q with
  | some mq' =>
    unfold mmuMappingFetch at h1
    rw [hq] at h1
    cases h1
    exact ⟨hf, rfl⟩
  | none =>
    obtain ⟨hfetched, _⟩ := hi.newMapping hq h1
    have hne : pid ≠ q := by
      rintro rfl
      rw [hq] at hf
      cases hf
    exact ⟨by rw [← hf]; exact (hfetched.find pid).trans (if_neg hne), (hfetched.call hq).blocks hne⟩

/-- **`mmu_destroy`.** Its failures are those of `mmu_set_ttb(0)`. -/
theorem Spaces.destroy (h : s.Spaces V) (hf : s.find pid = some mp) {r₀ : Int} {s₁ : Mmu}
    (hr : s.mmuSetTtb 0 = .ok (r₀, s₁)) :
    ∃ sp w, s.mmuDestroy pid = .ok (0, { s₁ with mappings := s₁.mappings.erase mp, world := w })
      ∧ s₁.Spaces (Function.update V 0 (some sp)) ∧ Call 0 s s₁ ∧ Fetch (V 0) sp
      ∧ Spaces { s₁ with mappings := s₁.mappings.erase mp, world := w }
          (Function.update (Function.update V 0 (some sp)) pid none)
      ∧ Released (s.blocks pid) s₁.world w := by
  obtain ⟨sp, h1, hcall, hfetch, _⟩ := h.setTtb hr
  obtain ⟨hf1, hb⟩ := h.setTtb_find hr hf
  obtain ⟨w, hd, h2, hrel⟩ := h1.unmap hf1
  refine ⟨sp, w, ?_, h1, hcall, hfetch, h2, hb ▸ hrel⟩
  unfold mmuDestroy
  rw [hf]
  rw [hr]
  exact hd

end Mmu

end Cyanurus
