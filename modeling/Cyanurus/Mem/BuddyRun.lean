import Cyanurus.Lib.Run
import Cyanurus.Mem.BuddyProof

/-!
# Every run of the page allocator

The pool is the allocator together with the blocks it has handed out and the sizes
they were asked for. Its steps are `buddy_alloc`, `buddy_free` of a block that is
out, and a write to the `next` field of such a block's first page, which belongs to
the block's owner.
-/

namespace Cyanurus.Buddy

open Dyadic Lts

/-- The allocator and the blocks that are out, each with the size it was asked for. -/
structure Pool where
  buddy : Buddy
  used : List (Nat × Nat)

inductive Act where
  | alloc (size : Nat)
  | free (page : Nat)
  | touch (page : Nat) (next : Option Nat)

/-- The steps of the pool. A call that halts is not a step. -/
inductive Step : Pool → Act → Pool → Prop where
  | alloc {s : Pool} {size p : Nat} {b' : Buddy} :
      size ≤ 4 * 1024 * 1024 → buddyAlloc s.buddy size = .ok (p, b') →
      Step s (.alloc size) ⟨b', (p, size) :: s.used⟩
  | free {s : Pool} {p n : Nat} {b' : Buddy} :
      (p, n) ∈ s.used → buddyFree s.buddy p = .ok b' →
      Step s (.free p) ⟨b', s.used.filter fun u => u.1 ≠ p⟩
  | touch {s : Pool} {p n : Nat} {x : Option Nat} :
      (p, n) ∈ s.used →
      Step s (.touch p x) ⟨s.buddy.setPage p fun q => { q with next := x }, s.used⟩

/-- The pages on the free list of order `k`, first page first. -/
def freeListOf (b : Buddy) (k : Nat) : List Nat := walk b.next pageNum (b.freeLists k)

/-- A block of the pool: on the free list of its order, or handed out. -/
def Pool.IsBlock (s : Pool) (h k : Nat) : Prop :=
  (k ≤ pageMaxOrder ∧ h ∈ freeListOf s.buddy k)
    ∨ ((∃ n, (h, n) ∈ s.used) ∧ (s.buddy.pages h).order = k)

/-- What holds of the pool in every state. -/
structure Pool.Sound (s : Pool) : Prop where
  /-- Every free list is a finite list, and no page is on it twice. -/
  listed : ∀ k, k ≤ pageMaxOrder →
    Chain s.buddy.next (s.buddy.freeLists k) (freeListOf s.buddy k) ∧ (freeListOf s.buddy k).Nodup
  /-- Every page lies in exactly one block. -/
  partition : ∀ i, i < pageNum →
    ∃ h k, (s.IsBlock h k ∧ h ≤ i ∧ i < h + 2 ^ k)
      ∧ ∀ h' k', s.IsBlock h' k' → h' ≤ i → i < h' + 2 ^ k' → h' = h ∧ k' = k
  /-- No block is both free and handed out, and none is handed out twice. -/
  separate : (∀ h n k, (h, n) ∈ s.used → k ≤ pageMaxOrder → h ∉ freeListOf s.buddy k)
    ∧ (s.used.map Prod.fst).Nodup
  /-- A block of order `k` starts at a multiple of `2 ^ k` and ends inside the pool. -/
  aligned : ∀ h k, s.IsBlock h k → 2 ^ k ∣ h ∧ h + 2 ^ k ≤ pageNum
  /-- Exactly the heads of free blocks carry `PF_FREE_LIST`. -/
  flagged : ∀ h, (s.buddy.pages h).freeList = true ↔
    ∃ k, k ≤ pageMaxOrder ∧ h ∈ freeListOf s.buddy k
  /-- A page is on the list of its own order only. -/
  once : ∀ h k, k ≤ pageMaxOrder → h ∈ freeListOf s.buddy k → (s.buddy.pages h).order = k
  /-- Two buddies below the top order are not both free. -/
  apart : ∀ h k, k < pageMaxOrder → h ∈ freeListOf s.buddy k →
    buddyFindBuddyIndex s.buddy h ∉ freeListOf s.buddy k
  /-- A block holds the bytes it was asked for. -/
  fits : ∀ h n, (h, n) ∈ s.used → n ≤ 2 ^ (s.buddy.pages h).order * pageSize
  /-- Freeing a block that is out never halts. -/
  unbroken : ∀ h n, (h, n) ∈ s.used → ∃ b', buddyFree s.buddy h = .ok b'
  /-- With nothing out, the lists hold exactly the blocks of the top order. -/
  restored : s.used = [] → ∀ h k, k ≤ pageMaxOrder →
    (h ∈ freeListOf s.buddy k ↔
      k = pageMaxOrder ∧ ∃ i, i < pageNum / 2 ^ pageMaxOrder ∧ h = i * 2 ^ pageMaxOrder)

/-- The invariant of a run: the page table mirrors a tiling, and `used` names its allocated blocks. -/
structure Pool.Inv (s : Pool) : Prop where
  wf : ∃ ord free, Wf s.buddy ord free none
  used : ∀ h, (s.buddy.pages h).firstPage = true ↔ ∃ n, (h, n) ∈ s.used
  nodup : (s.used.map Prod.fst).Nodup
  fits : ∀ h n, (h, n) ∈ s.used → n ≤ 2 ^ (s.buddy.pages h).order * pageSize

/-! ## The start -/

/-- The tiling of `buddy_init`: sixteen blocks of the top order. -/
def initOrd (h : Nat) : Option Nat :=
  if h < pageNum ∧ h % 2 ^ pageMaxOrder = 0 then some pageMaxOrder else none

variable {h k : Nat} {free : Nat → Prop} {ord : Nat → Option Nat} {b : Buddy} {s : Pool}

theorem initOrd_eq :
    initOrd h = some k ↔ (h < pageNum ∧ h % 2 ^ pageMaxOrder = 0) ∧ k = pageMaxOrder := by
  unfold initOrd
  split
  · rename_i hc
    refine ⟨fun he => ⟨hc, (Option.some.inj he).symm⟩, fun he => by rw [he.2]⟩
  · rename_i hc
    exact ⟨fun he => absurd he (by simp), fun he => absurd he.1 hc⟩

theorem initOrd_tiling : Tiling pageNum pageMaxOrder initOrd := by
  refine ⟨?_, ?_, ?_, ?_, ?_⟩
  · intro h k hk; rw [(initOrd_eq.mp hk).2]
  · intro h k hk
    obtain ⟨⟨_, h2⟩, rfl⟩ := initOrd_eq.mp hk
    exact Nat.dvd_of_mod_eq_zero h2
  · intro h k hk
    obtain ⟨⟨h1, h2⟩, rfl⟩ := initOrd_eq.mp hk
    simp only [pageNum, pageMaxOrder] at *
    omega
  · intro i hi
    refine ⟨i - i % 2 ^ pageMaxOrder, pageMaxOrder, initOrd_eq.mpr ⟨?_, rfl⟩, by omega, ?_⟩
    · simp only [pageMaxOrder] at *
      omega
    · omega
  · intro h k h' k' hk hk' hlt
    obtain ⟨⟨_, h2⟩, rfl⟩ := initOrd_eq.mp hk
    obtain ⟨⟨_, h2'⟩, rfl⟩ := initOrd_eq.mp hk'
    simp only [pageMaxOrder] at *
    omega

theorem buddyInit_page :
    (buddyInit.pages h).freeList = decide (h < pageNum ∧ h % 2 ^ pageMaxOrder = 0)
      ∧ (buddyInit.pages h).firstPage = false := by
  unfold buddyInit
  dsimp only
  rw [Nat.one_shiftLeft]
  split
  · rename_i hc; simp [hc]
  · rename_i hc; simp [hc]

/-- The list of the top order that `buddy_init` builds. -/
theorem buddyInit_chain :
    Chain buddyInit.next (buddyInit.freeLists pageMaxOrder) ((List.range 16).map (· * 1024)) := by
  simp only [List.range, List.range.loop, List.map, Chain]
  decide

theorem buddyInit_wf :
    Wf buddyInit initOrd (fun h => h < pageNum ∧ h % 2 ^ pageMaxOrder = 0) none := by
  refine ⟨initOrd_tiling, ?_, ?_, ?_, ?_, ?_, ?_, ?_⟩
  · intro h hh; exact ⟨⟨_, initOrd_eq.mpr ⟨hh, rfl⟩⟩, by simp⟩
  · intro h; rw [buddyInit_page.1]; simp
  · intro h
    rw [buddyInit_page.2]
    refine ⟨fun he => absurd he (by simp), fun he => ?_⟩
    obtain ⟨⟨k, hk⟩, hnf, _⟩ := he
    exact absurd (initOrd_eq.mp hk).1 hnf
  · intro h k hk _
    obtain ⟨hc, rfl⟩ := initOrd_eq.mp hk
    unfold buddyInit
    dsimp only
    rw [Nat.one_shiftLeft, if_pos hc]
  · intro h hh
    unfold next buddyInit
    dsimp only
    rw [if_neg]
    intro hc
    rw [initOrd_eq.mpr ⟨hc, rfl⟩] at hh
    cases hh
  · intro k
    by_cases hk : k = pageMaxOrder
    · subst hk
      refine ⟨_, buddyInit_chain, by decide, fun h => ?_⟩
      rw [initOrd_eq]
      simp only [List.mem_map, List.mem_range, pageNum, pageMaxOrder]
      refine ⟨fun he => ?_, fun he => ⟨h / 1024, by omega, by omega⟩⟩
      obtain ⟨i, h1, h2⟩ := he
      exact ⟨⟨by omega, by omega⟩, ⟨by omega, by omega⟩, trivial⟩
    · refine ⟨[], ?_, by simp, fun h => ?_⟩
      · show buddyInit.freeLists k = none
        unfold buddyInit; dsimp only; rw [if_neg hk]
      · rw [initOrd_eq]
        simp [hk]
  · intro h k hh hk hlt _
    obtain ⟨_, rfl⟩ := initOrd_eq.mp hk
    omega

theorem inv_init : Pool.Inv ⟨buddyInit, []⟩ := by
  refine ⟨⟨_, _, buddyInit_wf⟩, fun h => ?_, by simp, by simp⟩
  rw [buddyInit_page.2]
  simp

/-! ## The steps -/

/-- A write to the `next` field of an allocated block is invisible to the allocator. -/
theorem Wf.touch {p : Nat}
    {x : Option Nat} (w : Wf b ord free none) (hp : (b.pages p).firstPage = true) :
    Wf (b.setPage p fun q => { q with next := x }) ord free none := by
  obtain ⟨⟨k, hk⟩, hnf, _⟩ := w.firstFlag.mp hp
  refine w.setPage hnf (fun _ _ => .rfl) ⟨w.freeFlag, w.firstFlag, w.order, fun h => ?_⟩
  exact absurd (hk.symm.trans h) (by simp)

/-- **One step keeps the invariant.** -/
theorem inv_step {s' : Pool} {a : Act} (hi : s.Inv) (h : Step s a s') : s'.Inv := by
  obtain ⟨ord, free, w⟩ := hi.wf
  cases h with
  | @alloc size p b' _ hr =>
    obtain ⟨ord', free', w', hp0, hp1, hsz, hkeep, hback⟩ := buddyAlloc_wf w hr
    have hnew : ∀ n, (p, n) ∉ s.used := by
      intro n hn
      rw [(hi.used p).mpr ⟨n, hn⟩] at hp0
      cases hp0
    refine ⟨⟨ord', free', w'⟩, fun x => ?_, ?_, ?_⟩
    · by_cases hx : x = p
      · subst hx
        exact ⟨fun _ => ⟨size, List.mem_cons_self ..⟩, fun _ => hp1⟩
      · refine ⟨fun hf => ?_, fun he => ?_⟩
        · obtain ⟨n, hn⟩ := (hi.used x).mp (hback x hx hf)
          exact ⟨n, List.mem_cons_of_mem _ hn⟩
        · obtain ⟨n, hn⟩ := he
          rcases List.mem_cons.mp hn with heq | hn'
          · exact absurd (Prod.mk.inj heq).1 hx
          · have hf := (hi.used x).mpr ⟨n, hn'⟩
            rw [hkeep x hf]; exact hf
    · simp only [List.map_cons, List.nodup_cons]
      refine ⟨fun hm => ?_, hi.nodup⟩
      obtain ⟨u, hu, he⟩ := List.mem_map.mp hm
      exact hnew u.2 (by rw [← he]; exact hu)
    · intro x n hn
      rcases List.mem_cons.mp hn with heq | hn'
      · obtain ⟨rfl, rfl⟩ := Prod.mk.inj heq
        exact hsz
      · rw [hkeep x ((hi.used x).mpr ⟨n, hn'⟩)]
        exact hi.fits x n hn'
  | @free p n b' hm hr =>
    obtain ⟨b1, ord', free', hok, w', hkeep, hback⟩ := buddyFree_wf w ((hi.used p).mpr ⟨n, hm⟩)
    obtain rfl : b' = b1 := by rw [hr] at hok; injection hok
    refine ⟨⟨ord', free', w'⟩, fun x => ?_, ?_, ?_⟩
    · refine ⟨fun hf => ?_, fun he => ?_⟩
      · obtain ⟨hx, hf'⟩ := hback x hf
        obtain ⟨j, hj⟩ := (hi.used x).mp hf'
        exact ⟨j, List.mem_filter.mpr ⟨hj, by simpa using hx⟩⟩
      · obtain ⟨j, hj⟩ := he
        obtain ⟨hj1, hj2⟩ := List.mem_filter.mp hj
        have hx : x ≠ p := by simpa using hj2
        have hf := (hi.used x).mpr ⟨j, hj1⟩
        rw [hkeep x hx hf]; exact hf
    · exact hi.nodup.sublist (List.filter_sublist.map _)
    · intro x j hj
      obtain ⟨hj1, hj2⟩ := List.mem_filter.mp hj
      rw [hkeep x (by simpa using hj2) ((hi.used x).mpr ⟨j, hj1⟩)]
      exact hi.fits x j hj1
  | @touch p n x hm =>
    have hp := (hi.used p).mpr ⟨n, hm⟩
    refine ⟨⟨ord, free, w.touch hp⟩, fun y => ?_, hi.nodup, fun y j hj => ?_⟩
    · rw [setPage_firstPage s.buddy p y (fun q => { q with next := x }) rfl]
      exact hi.used y
    · have : ((s.buddy.setPage p fun q => { q with next := x }).pages y).order
          = (s.buddy.pages y).order := by
        by_cases hy : y = p
        · subst hy; rw [setPage_self]
        · rw [setPage_ne _ _ hy]
      rw [this]
      exact hi.fits y j hj

/-! ## What the invariant says -/

theorem Wf.freeListOf
    {fly : Option Nat} (w : Wf b ord free fly) (k : Nat) :
    Chain b.next (b.freeLists k) (freeListOf b k) ∧ (Buddy.freeListOf b k).Nodup
      ∧ ∀ h, h ∈ Buddy.freeListOf b k ↔ free h ∧ ord h = some k := by
  obtain ⟨l, hc, hnd, hm⟩ := w.lists k
  have : Buddy.freeListOf b k = l := hc.walk_eq (w.length_le hnd hm)
  rw [this]
  exact ⟨hc, hnd, hm⟩

theorem Pool.Inv.isBlock (hi : s.Inv)
    (w : Wf s.buddy ord free none) : s.IsBlock h k ↔ ord h = some k := by
  unfold Pool.IsBlock
  rw [(w.freeListOf k).2.2 h, ← hi.used h, w.firstFlag]
  refine ⟨fun hb => ?_, fun ho => ?_⟩
  · rcases hb with ⟨_, _, ho⟩ | ⟨⟨⟨j, hj⟩, _⟩, hk⟩
    · exact ho
    · rw [hj, ← hk, w.order hj (by simp)]
  · by_cases hf : free h
    · exact Or.inl ⟨w.tiling.top ho, hf, ho⟩
    · exact Or.inr ⟨⟨⟨k, ho⟩, hf, by simp⟩, w.order ho (by simp)⟩

theorem Pool.Inv.sound (hi : s.Inv) : s.Sound := by
  obtain ⟨ord, free, w⟩ := hi.wf
  have hmem : ∀ h k, h ∈ Buddy.freeListOf s.buddy k ↔ free h ∧ ord h = some k :=
    fun h k => (w.freeListOf k).2.2 h
  refine ⟨?_, ?_, ?_, ?_, ?_, ?_, ?_, hi.fits, ?_, ?_⟩
  · intro k _; exact ⟨(w.freeListOf k).1, (w.freeListOf k).2.1⟩
  · intro i hlt
    obtain ⟨h, k, ho, h1, h2⟩ := w.tiling.cover hlt
    refine ⟨h, k, ⟨(hi.isBlock w).mpr ho, h1, h2⟩, fun h' k' hb h3 h4 => ?_⟩
    have ho' := (hi.isBlock w).mp hb
    have he := w.tiling.unique ho' ho h3 h4 h1 h2
    subst he
    exact ⟨rfl, Option.some.inj (ho'.symm.trans ho)⟩
  · refine ⟨fun h n k hu _ hl => ?_, hi.nodup⟩
    exact (w.firstFlag.mp ((hi.used h).mpr ⟨n, hu⟩)).2.1 ((hmem h k).mp hl).1
  · intro h k hb
    have ho := (hi.isBlock w).mp hb
    exact ⟨w.tiling.aligned ho, w.tiling.inside ho⟩
  · intro h
    rw [w.freeFlag]
    refine ⟨fun hf => ?_, fun he => ?_⟩
    · obtain ⟨k, hk⟩ := (w.freeBlock hf).1
      exact ⟨k, w.tiling.top hk, (hmem h k).mpr ⟨hf, hk⟩⟩
    · obtain ⟨k, _, hl⟩ := he
      exact ((hmem h k).mp hl).1
  · intro h k _ hl
    exact w.order ((hmem h k).mp hl).2 (by simp)
  · intro h k hlt hl hl'
    obtain ⟨hf, ho⟩ := (hmem h k).mp hl
    rw [buddyFindBuddyIndex_eq, w.order ho (by simp)] at hl'
    obtain ⟨hf', ho'⟩ := (hmem _ k).mp hl'
    exact w.apart hf ho hlt hf' ho'
  · intro h n hu
    obtain ⟨b', _, _, hok, _⟩ := buddyFree_wf w ((hi.used h).mpr ⟨n, hu⟩)
    exact ⟨b', hok⟩
  · intro hnil h k hk
    -- nothing is out, so every block is free, and free twins do not stand side by side
    have hfree : ∀ {h k}, ord h = some k → free h := by
      intro h k ho
      rcases (hi.isBlock w).mpr ho with ⟨_, hl⟩ | ⟨⟨n, hu⟩, _⟩
      · exact ((hmem h k).mp hl).1
      · rw [hnil] at hu; cases hu
    have htop : ∀ {h k}, ord h = some k → k = pageMaxOrder :=
      w.tiling.all_top (by decide) fun h k ho hlt ho' => w.apart (hfree ho) ho hlt (hfree ho') ho'
    rw [hmem h k]
    refine ⟨fun hx => ?_, fun hx => ?_⟩
    · obtain rfl := htop hx.2
      have h1 := w.tiling.inside hx.2
      obtain ⟨c, hc⟩ := w.tiling.aligned hx.2
      refine ⟨rfl, c, ?_, by rw [hc, Nat.mul_comm]⟩
      simp only [pageMaxOrder] at *
      omega
    · obtain ⟨rfl, i, hlt, rfl⟩ := hx
      have hin : i * 2 ^ pageMaxOrder < pageNum := by
        simp only [pageMaxOrder] at *
        omega
      obtain ⟨h, k, ho, h1, h2⟩ := w.tiling.cover hin
      obtain rfl := htop ho
      obtain ⟨c, rfl⟩ := w.tiling.aligned ho
      have : i * 2 ^ pageMaxOrder = 2 ^ pageMaxOrder * c := by
        simp only [pageMaxOrder] at *
        omega
      rw [this]
      exact ⟨hfree ho, ho⟩

/-- **The pool is sound after every run from `buddy_init`.** -/
theorem buddy_run_sound {as : List Act} {s : Pool} (hr : Run Step ⟨buddyInit, []⟩ as s) :
    s.Sound :=
  Pool.Inv.sound (hr.invariant inv_init fun _ _ _ hi h => inv_step hi h)

/-- A block taken for 5000 bytes, linked by its owner and given back. -/
theorem buddy_run_sound_alloc_free : ∃ s p, Run Step ⟨buddyInit, []⟩
    [.alloc 5000, .touch p (some 3), .free p] s ∧ s.used = [] ∧ s.Sound := by
  have hok : (buddyAlloc buddyInit 5000).isOk = true := by decide
  cases ha : buddyAlloc buddyInit 5000 with
  | error e => rw [ha] at hok; exact absurd hok (by simp [Except.isOk, Except.toBool])
  | ok r =>
    have h1 : Run Step ⟨buddyInit, []⟩ [.alloc 5000] ⟨r.2, [(r.1, 5000)]⟩ :=
      Run.nil.snoc (Step.alloc (by decide) ha)
    have h2 := h1.snoc (Step.touch (x := some 3) (List.mem_singleton.mpr rfl))
    obtain ⟨b', hb'⟩ := (buddy_run_sound h2).unbroken r.1 5000 (List.mem_singleton.mpr rfl)
    have h3 := h2.snoc (Step.free (List.mem_singleton.mpr rfl) hb')
    exact ⟨_, r.1, h3, by simp, buddy_run_sound h3⟩

end Cyanurus.Buddy
