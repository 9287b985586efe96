import Mathlib.Data.List.Nodup
import Mathlib.Data.List.Perm.Subperm
import Cyanurus.Lib.Dyadic
import Cyanurus.Mem.Buddy

/-!
# What the page allocator keeps

The free lists and the blocks handed out cut the pages into a dyadic tiling. The
tiling is ghost state here: `ord` gives the order of the block that starts at a
page, `free` tells which blocks are on a free list. The page table mirrors both,
except that one block may be in flight between two lists while an operation runs.

Each primitive of `buddy.c` has one lemma saying what it does to that picture.
`buddy_pull_block` and `buddy_free` are then loops over `Wf.cut` and `Wf.join`,
which are the two moves of `Dyadic.Tiling`.
-/

namespace Cyanurus.Buddy

open Dyadic

/--
The page table mirrors the tiling `ord` with free blocks `free`. The block `fly`,
if any, is in flight: it is a block of the tiling that carries neither flag, and
its `order` field may be out of date.
-/
structure Wf (b : Buddy) (ord : Nat → Option Nat) (free : Nat → Prop) (fly : Option Nat) :
    Prop where
  /-- The blocks tile the pages. -/
  tiling : Tiling pageNum pageMaxOrder ord
  /-- A free block is a block, and not the one in flight. -/
  freeBlock : ∀ {h}, free h → (∃ k, ord h = some k) ∧ fly ≠ some h
  /-- Exactly the heads of free blocks carry `PF_FREE_LIST`. -/
  freeFlag : ∀ {h}, (b.pages h).freeList = true ↔ free h
  /-- Exactly the heads of allocated blocks carry `PF_FIRST_PAGE`. -/
  firstFlag : ∀ {h}, (b.pages h).firstPage = true ↔ (∃ k, ord h = some k) ∧ ¬ free h ∧ fly ≠ some h
  /-- The `order` field of a head is the order of its block. -/
  order : ∀ {h k}, ord h = some k → fly ≠ some h → (b.pages h).order = k
  /-- A page inside a block has no link. -/
  interior : ∀ {h}, ord h = none → b.next h = none
  /-- The list of order `k` holds exactly the free blocks of that order, once each. -/
  lists : ∀ k, ∃ l, Chain b.next (b.freeLists k) l ∧ l.Nodup ∧ ∀ h, h ∈ l ↔ free h ∧ ord h = some k
  /-- Two twins below the top order are not both free. -/
  apart : ∀ {h k}, free h → ord h = some k → k < pageMaxOrder → free (twin h k) →
    ord (twin h k) ≠ some k

variable {b : Buddy} {ord : Nat → Option Nat} {free : Nat → Prop} {fly : Option Nat}
  {fl : Prop} {o : Option Nat} {pg : Page} {p q k t lo up : Nat} {f : Page → Page} {b' : Buddy}
  {l : List Nat}

theorem buddyFindBuddyIndex_eq (b : Buddy) (page : Nat) :
    buddyFindBuddyIndex b page = twin page (b.pages page).order := by
  unfold buddyFindBuddyIndex twin
  simp only [Nat.and_one_is_mod, Nat.one_shiftLeft]
  split
  · rw [if_pos (by omega)]
  · rw [if_neg (by omega)]

/-- The entry of a page mirrors what the page is: the head of a block of order `o`, or none, on
a free list or in flight. -/
structure Mirrors (pg : Page) (o : Option Nat) (f fl : Prop) : Prop where
  freeFlag : pg.freeList = true ↔ f
  firstFlag : pg.firstPage = true ↔ (∃ k, o = some k) ∧ ¬ f ∧ ¬ fl
  order : ∀ {k}, o = some k → ¬ fl → pg.order = k
  interior : o = none → pg.next = none

theorem Mirrors.congr {f f' fl' : Prop} (m : Mirrors pg o f fl)
    (hf : f' ↔ f) (hl : fl' ↔ fl) : Mirrors pg o f' fl' := by
  obtain rfl := propext hf
  obtain rfl := propext hl
  exact m

theorem Mirrors.inFlight {f : Prop} (hfree : pg.freeList = false)
    (hfirst : pg.firstPage = false) (hnext : o = none → pg.next = none) (hf : ¬ f) (hl : fl) :
    Mirrors pg o f fl :=
  ⟨by simp [hfree, hf], by simp [hfirst, hl], fun _ h => absurd hl h, hnext⟩

theorem Wf.mirrors (w : Wf b ord free fly) (x : Nat) :
    Mirrors (b.pages x) (ord x) (free x) (fly = some x) :=
  ⟨w.freeFlag, w.firstFlag, w.order, w.interior⟩

theorem Wf.freeList_eq_false (w : Wf b ord free fly) (h : ¬ free p) :
    (b.pages p).freeList = false :=
  Bool.eq_false_iff.mpr fun hf => h (w.freeFlag.mp hf)

theorem Wf.not_first (w : Wf b ord free fly)
    (h : (∃ k, ord p = some k) → ¬ free p → fly = some p) : (b.pages p).firstPage = false := by
  refine Bool.eq_false_iff.mpr fun hf => ?_
  obtain ⟨hk, hnf, hne⟩ := w.firstFlag.mp hf
  exact hne (h hk hnf)

/-- The block in flight is not free. -/
theorem Wf.not_free (w : Wf b ord free (some p)) : ¬ free p :=
  fun hf => (w.freeBlock hf).2 rfl

theorem setPage_next_ne (b : Buddy) (f : Page → Page) (h : q ≠ p) :
    (b.setPage p f).next q = b.next q := by
  unfold next; rw [setPage_ne b f h]

/-- A field update that changes no field changes nothing. -/
theorem setPage_eq_self (b : Buddy) (h : f (b.pages p) = b.pages p) :
    b.setPage p f = b := by
  unfold setPage; rw [h, Function.update_eq_self]

/-- A field update that keeps the link keeps every chain. -/
theorem setPage_next (b : Buddy) (p : Nat) (f : Page → Page)
    (hf : (f (b.pages p)).next = (b.pages p).next) : (b.setPage p f).next = b.next := by
  funext q
  unfold next
  by_cases h : q = p
  · subst h; rw [setPage_self]; exact hf
  · rw [setPage_ne b f h]

/-- A field update that keeps the first-page flag keeps it everywhere. -/
theorem setPage_firstPage (b : Buddy) (p x : Nat) (f : Page → Page)
    (hf : (f (b.pages p)).firstPage = (b.pages p).firstPage) :
    ((b.setPage p f).pages x).firstPage = (b.pages x).firstPage := by
  by_cases h : x = p
  · subst h; rw [setPage_self]; exact hf
  · rw [setPage_ne b f h]

/-- The allocated pages are the same ones, with the same entries. -/
def Spared (b b' : Buddy) : Prop :=
  ∀ x, (b'.pages x).firstPage = (b.pages x).firstPage
    ∧ ((b.pages x).firstPage = true → b'.pages x = b.pages x)

theorem Spared.refl (b : Buddy) : Spared b b := fun _ => ⟨rfl, fun _ => rfl⟩

theorem Spared.trans {b'' : Buddy} (h : Spared b b') (h' : Spared b' b'') : Spared b b'' := by
  refine fun x => ⟨(h' x).1.trans (h x).1, fun hx => ?_⟩
  rw [(h' x).2 ((h x).1.trans hx), (h x).2 hx]

/-- A change of a page that is not allocated. -/
theorem Spared.setPage (hp : (b.pages p).firstPage = false)
    (hf : (f (b.pages p)).firstPage = false) : Spared b (b.setPage p f) := by
  intro x
  by_cases h : x = p
  · subst h
    rw [setPage_self, hf, hp]
    exact ⟨rfl, fun h => absurd h (by simp)⟩
  · rw [setPage_ne b f h]
    exact ⟨rfl, fun _ => rfl⟩

/-! ## The lists -/

/-- The lists hold exactly the free blocks, once each. -/
def Lists (b : Buddy) (ord : Nat → Option Nat) (free : Nat → Prop) : Prop :=
  ∀ k, ∃ l, Chain b.next (b.freeLists k) l ∧ l.Nodup ∧ ∀ h, h ∈ l ↔ free h ∧ ord h = some k

/-- One list changes; the links of the blocks on the others stay. -/
theorem Lists.replace {ord' : Nat → Option Nat} {free' : Nat → Prop} (k : Nat)
    (hl : Lists b ord free) (hheads : ∀ j, j ≠ k → b'.freeLists j = b.freeLists j)
    (hnext : ∀ x, free x → ord x ≠ some k → b'.next x = b.next x)
    (hothers : ∀ x j, j ≠ k → (free' x ∧ ord' x = some j ↔ free x ∧ ord x = some j))
    (hk : ∃ l, Chain b'.next (b'.freeLists k) l ∧ l.Nodup ∧ ∀ h, h ∈ l ↔ free' h ∧ ord' h = some k) :
    Lists b' ord' free' := by
  intro j
  by_cases hj : j = k
  · exact hj ▸ hk
  · obtain ⟨l, hc, hnd, hm⟩ := hl j
    refine ⟨l, ?_, hnd, fun x => (hm x).trans (hothers x j hj).symm⟩
    rw [hheads j hj]
    refine hc.congr fun x hx => ?_
    obtain ⟨hf, ho⟩ := (hm x).mp hx
    exact hnext x hf fun he => hj (Option.some.inj (ho.symm.trans he))

theorem mem_taken (ht : t ∉ l)
    (hm : ∀ h, h ∈ t :: l ↔ free h ∧ ord h = some k) (x : Nat) :
    x ∈ l ↔ (free x ∧ x ≠ t) ∧ ord x = some k := by
  have hx := hm x
  rw [List.mem_cons] at hx
  refine ⟨fun hxl => ?_, fun h => (hx.mpr ⟨h.1.1, h.2⟩).resolve_left h.1.2⟩
  obtain ⟨h1, h2⟩ := hx.mp (.inr hxl)
  exact ⟨⟨h1, fun he => ht (he ▸ hxl)⟩, h2⟩

/-- The other lists do not hold the block that is taken. -/
theorem free_taken (ho : ord t = some k) (x : Nat) {j : Nat} (hj : j ≠ k) :
    (free x ∧ x ≠ t) ∧ ord x = some j ↔ free x ∧ ord x = some j := by
  refine ⟨fun h => ⟨h.1.1, h.2⟩, fun h => ⟨⟨h.1, fun he => hj ?_⟩, h.2⟩⟩
  rw [he, ho] at h
  exact (Option.some.inj h.2).symm

/-- Taking the first block off its list. -/
theorem Lists.takeFirst (hl : Lists b ord free) (hk : b.freeLists k = some t) :
    free t ∧ ord t = some k ∧ Lists ((b.setHead k (b.pages t).next).setPage t
      fun q => { q with next := none, freeList := false }) ord fun x => free x ∧ x ≠ t := by
  obtain ⟨l, hc, hnd, hm⟩ := hl k
  rw [hk] at hc
  obtain ⟨l, rfl, hc'⟩ := hc.head_some
  obtain ⟨hfree, hord⟩ := (hm t).mp (List.mem_cons_self ..)
  obtain ⟨hnot, hnd⟩ := List.nodup_cons.mp hnd
  refine ⟨hfree, hord, hl.replace k (fun j hj => setHead_ne _ _ hj) (fun x _ ho => ?_)
    (fun x _ => free_taken hord x) ⟨l, ?_, hnd, mem_taken hnot hm⟩⟩
  · exact setPage_next_ne _ _ fun he => ho (he ▸ hord)
  · rw [setPage_freeLists, setHead_self]
    exact hc'.congr fun x hx => setPage_next_ne _ _ fun he => hnot (he ▸ hx)

theorem Wf.of_mirrors (ht : Tiling pageNum pageMaxOrder ord)
    (hfree : ∀ {h}, free h → (∃ k, ord h = some k) ∧ fly ≠ some h)
    (hm : ∀ x, Mirrors (b.pages x) (ord x) (free x) (fly = some x)) (hl : Lists b ord free)
    (hapart : ∀ {h k}, free h → ord h = some k → k < pageMaxOrder → free (twin h k) →
      ord (twin h k) ≠ some k) : Wf b ord free fly :=
  ⟨ht, hfree, (hm _).freeFlag, (hm _).firstFlag, (hm _).order, (hm _).interior, hl, hapart⟩

/-- A change of the entry of one page that is on no list. -/
theorem Wf.setPage {fly' : Option Nat} (w : Wf b ord free fly)
    (hpf : ¬ free p) (hfly : ∀ x, x ≠ p → (fly' = some x ↔ fly = some x))
    (hp : Mirrors (f (b.pages p)) (ord p) (free p) (fly' = some p)) :
    Wf (b.setPage p f) ord free fly' := by
  have hne : ∀ {x}, free x → x ≠ p := fun hf he => hpf (he ▸ hf)
  refine .of_mirrors w.tiling (fun hf => ?_) (fun x => ?_) (fun k => ?_) w.apart
  · exact ⟨(w.freeBlock hf).1, fun he => (w.freeBlock hf).2 ((hfly _ (hne hf)).mp he)⟩
  · by_cases hx : x = p
    · subst hx
      rw [setPage_self]
      exact hp
    · rw [setPage_ne b f hx]
      exact (w.mirrors x).congr .rfl (hfly x hx)
  · obtain ⟨l, hc, hl⟩ := w.lists k
    exact ⟨l, hc.congr fun x hx => setPage_next_ne b f (hne ((hl.2 x).mp hx).1), hl⟩

theorem pop_none (w : Wf b ord free fly)
    (h : buddyListPop b k = (none, b')) : b' = b ∧ ∀ x, free x → ord x ≠ some k := by
  unfold buddyListPop at h
  split at h
  · rename_i hk
    obtain ⟨l, hc, _, hm⟩ := w.lists k
    rw [hk] at hc
    rw [hc.head_none] at hm
    refine ⟨(Prod.mk.inj h).2.symm, fun x hx ho => ?_⟩
    exact absurd ((hm x).mpr ⟨hx, ho⟩) (by simp)
  · exact absurd (Prod.mk.inj h).1 (by simp)

/-- Popping takes the first block of the list into flight. -/
theorem Wf.pop (w : Wf b ord free none)
    (h : buddyListPop b k = (some p, b')) :
    Wf b' ord (fun x => free x ∧ x ≠ p) (some p) ∧ ord p = some k ∧ b'.next p = none
      ∧ (b'.pages p).order = k ∧ Spared b b' := by
  unfold buddyListPop at h
  split at h
  · exact absurd (Prod.mk.inj h).1 (by simp)
  rename_i page hk
  obtain ⟨hpage, hb'⟩ := Prod.mk.inj h
  obtain rfl : page = p := Option.some.inj hpage
  obtain ⟨hfree, hord, hlists⟩ := Lists.takeFirst w.lists hk
  rw [hb'] at hlists
  have hpages : ∀ q, q ≠ page → b'.pages q = b.pages q := by
    intro q hq; rw [← hb', setPage_ne _ _ hq]; rfl
  have hself : b'.pages page = { b.pages page with next := none, freeList := false } := by
    rw [← hb', setPage_self]; rfl
  have hfirst : (b.pages page).firstPage = false := w.not_first fun _ hnf => absurd hfree hnf
  refine ⟨.of_mirrors w.tiling (fun hx => ?_) (fun x => ?_) hlists ?_, hord, ?_, ?_, ?_⟩
  · exact ⟨(w.freeBlock hx.1).1, fun he => hx.2 (Option.some.inj he).symm⟩
  · by_cases hx : x = page
    · subst hx
      rw [hself]
      exact .inFlight rfl hfirst (fun _ => rfl) (by simp) rfl
    · rw [hpages x hx]
      exact (w.mirrors x).congr (by simp [hx]) (by simp [Ne.symm hx])
  · exact fun hx hj hlt ht => w.apart hx.1 hj hlt ht.1
  · unfold next; rw [hself]
  · rw [hself]; exact w.order hord (by simp)
  · rw [← hb']
    exact .setPage hfirst hfirst

/-! ## Cutting a block in flight -/

/-- One round of the second loop of `buddy_pull_block`. -/
def cutStep (b : Buddy) (i p : Nat) : Buddy :=
  ((b.setPage p fun q => { q with order := i }).setHead i (some p)).setPage p
    fun q => { q with freeList := true }

theorem cutStep_self (b : Buddy) (i p : Nat) :
    (cutStep b i p).pages p = { b.pages p with order := i, freeList := true } := by
  unfold cutStep; rw [setPage_self, setHead_pages, setPage_self]

theorem cutStep_ne (b : Buddy) (i : Nat) (h : q ≠ p) :
    (cutStep b i p).pages q = b.pages q := by
  unfold cutStep; rw [setPage_ne _ _ h, setHead_pages, setPage_ne _ _ h]

theorem cutStep_next (b : Buddy) (i p : Nat) : (cutStep b i p).next = b.next := by
  funext q
  unfold next
  by_cases h : q = p
  · subst h; rw [cutStep_self]
  · rw [cutStep_ne b i h]

theorem cutStep_spared (i : Nat) (h : (b.pages p).firstPage = false) : Spared b (cutStep b i p) := by
  have h1 : Spared b (b.setPage p fun q => { q with order := i }) := .setPage h h
  have h2 : ((b.setPage p fun q => { q with order := i }).pages p).firstPage = false := (h1 p).1.trans h
  exact h1.trans (.setPage (b := (b.setPage p fun q => { q with order := i }).setHead i (some p)) h2 h2)

/-- The lower half goes on the empty list of its order, the upper half stays in flight. -/
theorem Wf.cut {i : Nat} (w : Wf b ord free (some p)) (hp : ord p = some (i + 1))
    (hn : b.next p = none) (hempty : ∀ x, free x → ord x ≠ some i) :
    Wf (cutStep b i p) (Function.update (Function.update ord p (some i)) (p + 2 ^ i) (some i))
      (fun x => free x ∨ x = p) (some (p + 2 ^ i)) := by
  have hpos : 0 < 2 ^ i := Nat.two_pow_pos i
  have hne : p ≠ p + 2 ^ i := by omega
  have hmid : ord (p + 2 ^ i) = none := w.tiling.none_inside hp (by omega) (by omega)
  have hmf : ¬ free (p + 2 ^ i) := by
    intro hf
    obtain ⟨k, hk⟩ := (w.freeBlock hf).1
    rw [hmid] at hk
    cases hk
  have htiling := w.tiling.split hp
  generalize hord' : Function.update (Function.update ord p (some i)) (p + 2 ^ i) (some i) = ord'
    at htiling ⊢
  have hlow : ord' p = some i := by
    rw [← hord', Function.update_of_ne hne, Function.update_self]
  have hold : ∀ x, x ≠ p → x ≠ p + 2 ^ i → ord' x = ord x := by
    intro x h1 h2
    rw [← hord', Function.update_of_ne h2, Function.update_of_ne h1]
  -- the halves are not free, so a free block is what it was
  have hout : ∀ {x}, free x → x ≠ p + 2 ^ i ∧ ord' x = ord x := by
    intro x hx
    have h2 : x ≠ p + 2 ^ i := fun he => hmf (he ▸ hx)
    exact ⟨h2, hold x (fun he => w.not_free (he ▸ hx)) h2⟩
  refine .of_mirrors htiling (fun hx => ?_) (fun x => ?_)
    (Lists.replace i w.lists (fun k hk => ?_) (fun x _ _ => ?_) (fun x k hk => ?_) ⟨[p], ?_, by simp, ?_⟩) ?_
  · rcases hx with hx | rfl
    · rw [(hout hx).2]
      exact ⟨(w.freeBlock hx).1, fun he => (hout hx).1 (Option.some.inj he).symm⟩
    · exact ⟨⟨i, hlow⟩, fun he => hne (Option.some.inj he).symm⟩
  · have hm := w.mirrors x
    by_cases hx : x = p
    · subst hx
      rw [cutStep_self, hlow]
      exact ⟨by simp, by simpa using w.not_first fun _ _ => rfl, fun h _ => Option.some.inj h, by simp⟩
    rw [cutStep_ne b i hx]
    by_cases hx2 : x = p + 2 ^ i
    · subst hx2
      refine .inFlight (w.freeList_eq_false hmf) (w.not_first fun h => ?_) (fun _ => hm.interior hmid)
        (by simp [hmf]) rfl
      exact absurd h (by simp [hmid])
    · rw [hold x hx hx2]
      exact hm.congr (by simp [hx]) (by simp [Ne.symm hx, Ne.symm hx2])
  · exact setHead_ne _ _ hk
  · rw [cutStep_next]
  · refine ⟨?_, fun h => ⟨.inl h.1, (hout h.1).2.trans h.2⟩⟩
    rintro ⟨hx | rfl, ho⟩
    · exact ⟨hx, (hout hx).2 ▸ ho⟩
    · exact absurd (Option.some.inj (ho.symm.trans hlow)) hk
  · -- the list of this order was empty: no free block has it
    rw [cutStep_next]
    exact ⟨by simp [cutStep], hn⟩
  · intro x
    rw [List.mem_singleton]
    refine ⟨fun hx => ⟨.inr hx, hx ▸ hlow⟩, ?_⟩
    rintro ⟨hx | hx, ho⟩
    · exact absurd ((hout hx).2 ▸ ho) (hempty x hx)
    · exact hx
  · intro x k hx hk hlt ht
    have hdvd : 2 ^ (i + 1) ∣ p := w.tiling.aligned hp
    rcases hx with hx | rfl
    · rw [(hout hx).2] at hk
      rcases ht with ht | ht
      · rw [(hout ht).2]
        exact w.apart hx hk hlt ht
      · -- the twin would be the lower half, so the block itself would have its order
        rw [ht, hlow]
        intro he
        cases he
        exact hempty x hx hk
    · rw [hlow] at hk
      cases hk
      rw [twin_of_dvd hdvd] at ht ⊢
      rcases ht with ht | ht
      · exact absurd ht hmf
      · omega

/-- What the second loop of `buddy_pull_block` leaves behind. -/
theorem pullCut_wf (start : Nat) : ∀ (n : Nat) {b : Buddy} {ord : Nat → Option Nat}
    {free : Nat → Prop} {p : Nat}, Wf b ord free (some p) → ord p = some (start + n) →
    b.next p = none → (∀ j, start ≤ j → j < start + n → ∀ x, free x → ord x ≠ some j) →
    ∃ ord' free', Wf (pullCut b start p n).2 ord' free' (some (pullCut b start p n).1)
      ∧ ord' (pullCut b start p n).1 = some start ∧ Spared b (pullCut b start p n).2
  | 0, b, ord, free, p, w, hp, _, _ => ⟨ord, free, w, hp, .refl b⟩
  | n + 1, b, ord, free, p, w, hp, hn, hempty => by
    have hpos : 0 < 2 ^ (start + n) := Nat.two_pow_pos _
    have hmid : ord (p + 2 ^ (start + n)) = none :=
      w.tiling.none_inside hp (by omega) (by rw [← Nat.add_assoc]; omega)
    have hw := w.cut (i := start + n) hp hn (hempty (start + n) (by omega) (by omega))
    have hn' : (cutStep b (start + n) p).next (p + 2 ^ (start + n)) = none := by
      rw [cutStep_next]; exact w.interior hmid
    have hrec := pullCut_wf start n hw (by simp) hn' (by
      intro j h1 h2 x hx
      rcases hx with hx | hx
      · have hxp : x ≠ p := fun he => (w.freeBlock (he ▸ hx)).2 rfl
        have hxm : x ≠ p + 2 ^ (start + n) := by
          intro he
          obtain ⟨k, hk⟩ := (w.freeBlock hx).1
          rw [he, hmid] at hk
          cases hk
        rw [Function.update_of_ne hxm, Function.update_of_ne hxp]
        exact hempty j h1 (by omega) x hx
      · rw [hx, Function.update_of_ne (by omega), Function.update_self]
        intro he
        have := Option.some.inj he
        omega)
    have heq : pullCut b start p (n + 1)
        = pullCut (cutStep b (start + n) p) start (p + 2 ^ (start + n)) n := by
      rw [pullCut, Nat.one_shiftLeft]; rfl
    rw [heq]
    obtain ⟨ord', free', h1, h2, h3⟩ := hrec
    exact ⟨ord', free', h1, h2, (cutStep_spared _ (w.not_first fun _ _ => rfl)).trans h3⟩

/-! ## Allocation -/

/-- Handing out the block in flight. -/
theorem Wf.hand_out (w : Wf b ord free (some p)) (hp : ord p = some k)
    (ho : (b.pages p).order = k) :
    Wf (b.setPage p fun q => { q with firstPage := true }) ord free none := by
  refine w.setPage w.not_free (fun x hx => by simp [Ne.symm hx]) ?_
  refine ⟨w.freeFlag, by simp [hp, w.not_free], fun hj _ => ?_, fun h => ?_⟩
  · exact ho.trans (Option.some.inj (hp.symm.trans hj))
  · exact absurd (hp.symm.trans h) (by simp)

/-- Writing the `order` field of the block in flight. -/
theorem Wf.set_order (w : Wf b ord free (some p)) :
    Wf (b.setPage p fun q => { q with order := k }) ord free (some p) :=
  w.setPage w.not_free (fun _ _ => .rfl) (.inFlight (w.freeList_eq_false w.not_free)
    (w.not_first fun _ _ => rfl) (w.mirrors p).interior w.not_free rfl)

/-- The first loop of `buddy_pull_block` takes the smallest larger block. -/
theorem pullPop_wf : ∀ (n : Nat) {i : Nat}, Wf b ord free none → i + n = pageMaxDepth →
    ∀ {j p : Nat} {b' : Buddy}, pullPop b i n = some (j, p, b') →
    Wf b' ord (fun x => free x ∧ x ≠ p) (some p) ∧ ord p = some j ∧ b'.next p = none
      ∧ i ≤ j ∧ (∀ k, i ≤ k → k < j → ∀ x, free x → ord x ≠ some k) ∧ Spared b b'
  | 0, _, _, _, _, _, _, h => by exact absurd h (by simp [pullPop])
  | n + 1, i, w, hn, j, p, b', h => by
    rw [pullPop] at h
    split at h
    · rename_i page b1 hpop
      injection h with h
      injection h with h1 h
      injection h with h2 h3
      subst h1; subst h2; subst h3
      obtain ⟨hw, ho, hx, _, hpg⟩ := w.pop hpop
      exact ⟨hw, ho, hx, Nat.le_refl _, fun k h1 h2 => by omega, hpg⟩
    · rename_i b1 hpop
      obtain ⟨hb, hno⟩ := pop_none w hpop
      rw [hb] at h
      obtain ⟨h1, h2, h3, h4, h5, h6⟩ := pullPop_wf n w (by omega) h
      refine ⟨h1, h2, h3, by omega, fun k hk1 hk2 x hx => ?_, h6⟩
      rcases Nat.eq_or_lt_of_le hk1 with heq | hlt
      · subst heq; exact hno x hx
      · exact h5 k hlt hk2 x hx

/-- The order `buddy_alloc` asks for holds the bytes it was asked for. -/
theorem sizeOrder_le : ∀ (n : Nat) {size i k : Nat}, sizeOrder size i n = some k →
    size ≤ 2 ^ k * pageSize ∧ k < i + n
  | 0, _, _, _, h => by exact absurd h (by simp [sizeOrder])
  | n + 1, size, i, k, h => by
    rw [sizeOrder] at h
    split at h
    · rename_i hle
      cases h
      rw [Nat.one_shiftLeft] at hle
      exact ⟨hle, by omega⟩
    · obtain ⟨h1, h2⟩ := sizeOrder_le n h
      exact ⟨h1, by omega⟩

/--
**`buddy_alloc` keeps the picture.** It hands out a block that was not allocated
before and that holds `size` bytes, and touches no other allocated page.
-/
theorem buddyAlloc_wf {size : Nat} (w : Wf b ord free none)
    (h : buddyAlloc b size = .ok (p, b')) :
    ∃ ord' free', Wf b' ord' free' none ∧ (b.pages p).firstPage = false
      ∧ (b'.pages p).firstPage = true ∧ size ≤ 2 ^ (b'.pages p).order * pageSize
      ∧ (∀ x, (b.pages x).firstPage = true → b'.pages x = b.pages x)
      ∧ ∀ x, x ≠ p → (b'.pages x).firstPage = true → (b.pages x).firstPage = true := by
  -- whichever way the block came into flight, handing it out ends the same way
  have finish : ∀ {b1 : Buddy} {ord' : Nat → Option Nat} {free' : Nat → Prop} {k : Nat},
      Wf b1 ord' free' (some p) → ord' p = some k → (b1.pages p).order = k →
      size ≤ 2 ^ k * pageSize → Spared b b1 → b' = b1.setPage p (fun q => { q with firstPage := true }) →
      ∃ ord' free', Wf b' ord' free' none ∧ (b.pages p).firstPage = false
        ∧ (b'.pages p).firstPage = true ∧ size ≤ 2 ^ (b'.pages p).order * pageSize
        ∧ (∀ x, (b.pages x).firstPage = true → b'.pages x = b.pages x)
        ∧ ∀ x, x ≠ p → (b'.pages x).firstPage = true → (b.pages x).firstPage = true := by
    intro b1 ord' free' k hw hp ho hsize hspared hb'
    have hp0 : (b.pages p).firstPage = false := (hspared p).1.symm.trans (hw.not_first fun _ _ => rfl)
    subst hb'
    refine ⟨ord', free', hw.hand_out hp ho, hp0, by rw [setPage_self], ?_, ?_, ?_⟩
    · rw [setPage_self]
      rw [ho]; exact hsize
    · intro x hx
      have hne : x ≠ p := by
        intro he; subst he; rw [hp0] at hx; cases hx
      rw [setPage_ne _ _ hne, (hspared x).2 hx]
    · intro x hne hx
      rw [setPage_ne _ _ hne] at hx
      exact (hspared x).1.symm.trans hx
  unfold buddyAlloc at h
  split at h
  · cases h
  rename_i i hi
  obtain ⟨hsize, hidx⟩ := sizeOrder_le _ hi
  split at h
  · rename_i page b1 hpop
    injection h with h
    injection h with h1 h2
    subst h1
    obtain ⟨hw, ho, _, hord, hspared⟩ := w.pop hpop
    exact finish hw ho hord hsize hspared h2.symm
  · rename_i b1 hpop
    obtain ⟨hb, hno⟩ := pop_none w hpop
    rw [hb] at h
    unfold buddyPullBlock at h
    split at h
    · exact absurd h (by simp [bind, Except.bind])
    rename_i j page b2 hpull
    injection h with h
    injection h with h1 h2
    obtain ⟨hw, ho, hn, hij, hempty, hpopped⟩ := pullPop_wf _ w (by unfold pageMaxDepth at *; omega) hpull
    obtain ⟨d, rfl⟩ : ∃ d, j = i + d := ⟨j - i, by omega⟩
    rw [Nat.add_sub_cancel_left] at h1 h2
    obtain ⟨ord', free', hw', ho', hcut⟩ := pullCut_wf i d hw ho hn (by
      intro k h1 h2 x hx
      rcases Nat.eq_or_lt_of_le h1 with heq | hlt
      · subst heq; exact hno x hx.1
      · exact hempty k hlt h2 x hx.1)
    rw [h1] at hw' ho' h2
    have hfirst := hw'.not_first fun _ _ => rfl
    refine finish hw'.set_order ho' (by rw [setPage_self]) hsize ((hpopped.trans hcut).trans ?_) h2.symm
    exact .setPage hfirst hfirst

/-! ## Freeing -/

/-- A free list is no longer than the page table. -/
theorem Wf.length_le (w : Wf b ord free fly) (hnd : l.Nodup)
    (hm : ∀ h, h ∈ l ↔ free h ∧ ord h = some k) : l.length ≤ pageNum := by
  have hsub : l ⊆ List.range pageNum := by
    intro x hx
    have := w.tiling.inside ((hm x).mp hx).2
    have := Nat.two_pow_pos k
    exact List.mem_range.mpr (by omega)
  simpa using (hnd.subperm hsub).length_le

theorem buddyListPush_self (b : Buddy) (k p : Nat) :
    (buddyListPush b k p).pages p = { b.pages p with next := b.freeLists k, freeList := true } := by
  unfold buddyListPush
  cases h : b.freeLists k with
  | none => rw [setPage_self, setHead_pages, setPage_self]
  | some q => rw [setPage_self, setHead_pages, setPage_self]

theorem buddyListPush_ne (b : Buddy) (k : Nat) (h : q ≠ p) :
    (buddyListPush b k p).pages q = b.pages q := by
  unfold buddyListPush
  cases b.freeLists k with
  | none => rw [setPage_ne _ _ h, setHead_pages, setPage_ne _ _ h]
  | some r => rw [setPage_ne _ _ h, setHead_pages, setPage_ne _ _ h]

theorem buddyListPush_freeLists (b : Buddy) (k p : Nat) :
    (buddyListPush b k p).freeLists = Function.update b.freeLists k (some p) := by
  unfold buddyListPush
  cases b.freeLists k with
  | none => rfl
  | some r => rfl

/-- Pushing lands the block in flight, provided its twin is not waiting for it. -/
theorem Wf.push (w : Wf b ord free (some p)) (hp : ord p = some k)
    (ho : (b.pages p).order = k)
    (htwin : k < pageMaxOrder → free (twin p k) → ord (twin p k) ≠ some k) :
    Wf (buddyListPush b k p) ord (fun x => free x ∨ x = p) none := by
  have hnext : ∀ {x}, free x → (buddyListPush b k p).next x = b.next x := by
    intro x hx
    unfold next
    rw [buddyListPush_ne b k fun he : x = p => w.not_free (he ▸ hx)]
  obtain ⟨l, hc, hnd, hm⟩ := w.lists k
  have hpl : p ∉ l := fun hl => w.not_free ((hm p).mp hl).1
  refine .of_mirrors w.tiling (fun hx => ⟨?_, by simp⟩) (fun x => ?_)
    (Lists.replace k w.lists (fun j hj => ?_) (fun x hx _ => hnext hx) (fun x j hj => ?_)
      ⟨p :: l, ?_, List.nodup_cons.mpr ⟨hpl, hnd⟩, fun x => ?_⟩) ?_
  · rcases hx with hx | rfl
    · exact (w.freeBlock hx).1
    · exact ⟨k, hp⟩
  · by_cases hx : x = p
    · subst hx
      rw [buddyListPush_self]
      exact ⟨by simp, by simpa using w.not_first fun _ _ => rfl,
        fun hj _ => ho.trans (Option.some.inj (hp.symm.trans hj)), fun h => by simp [hp] at h⟩
    · rw [buddyListPush_ne b k hx]
      exact (w.mirrors x).congr (by simp [hx]) (by simp [Ne.symm hx])
  · rw [buddyListPush_freeLists, Function.update_of_ne hj]
  · refine ⟨?_, fun h => ⟨.inl h.1, h.2⟩⟩
    rintro ⟨hx | rfl, hxo⟩
    · exact ⟨hx, hxo⟩
    · exact absurd (Option.some.inj (hxo.symm.trans hp)) hj
  · rw [buddyListPush_freeLists, Function.update_self]
    have hself : (buddyListPush b k p).next p = b.freeLists k := by
      unfold next; rw [buddyListPush_self]
    exact ⟨rfl, hself ▸ hc.congr fun x hx => hnext ((hm x).mp hx).1⟩
  · rw [List.mem_cons, hm x]
    refine ⟨?_, ?_⟩
    · rintro (rfl | h)
      · exact ⟨.inr rfl, hp⟩
      · exact ⟨.inl h.1, h.2⟩
    · rintro ⟨hx | hx, hxo⟩
      · exact .inr ⟨hx, hxo⟩
      · exact .inl hx
  · intro x j hx hj hlt ht
    rcases hx with hx | rfl
    · rcases ht with ht | ht
      · exact w.apart hx hj hlt ht
      · -- the block's twin is the one just pushed, so it is that one's twin
        rw [ht, hp]
        intro he
        cases he
        have hback : twin p k = x := by rw [← ht]; exact twin_twin (w.tiling.aligned hj)
        exact htwin hlt (hback ▸ hx) (hback ▸ hj)
    · obtain rfl := Option.some.inj (hp.symm.trans hj)
      rcases ht with ht | ht
      · exact htwin hlt ht
      · exact absurd ht (twin_ne (w.tiling.aligned hp))

/-- `buddy_list_remove` finds a free block on the list of its order and takes it off. -/
theorem buddyListRemove_spec (w : Wf b ord free fly) (hf : free t)
    (ho : ord t = some k) :
    ∃ b', buddyListRemove b k t = .ok (some t, b')
      ∧ b'.pages t = { b.pages t with next := none, freeList := false }
      ∧ (∀ x, x ≠ t → b'.pages x = { b.pages x with next := b'.next x })
      ∧ (∀ x, ¬ free x → b'.pages x = b.pages x) ∧ Lists b' ord fun x => free x ∧ x ≠ t := by
  obtain ⟨l, hc, hnd, hm⟩ := w.lists k
  have hlen := w.length_le hnd hm
  obtain ⟨A, B, rfl⟩ := List.append_of_mem ((hm t).mpr ⟨hf, ho⟩)
  obtain ⟨hnot, hnd'⟩ := List.nodup_cons.mp (List.nodup_middle.mp hnd)
  have htA : t ∉ A := fun hA => hnot (List.mem_append_left _ hA)
  have hmem := mem_taken hnot fun h => List.perm_middle.mem_iff.symm.trans (hm h)
  have hfind := hc.findLink_after (p := none) (f := pageNum + 1) htA (by simp at hlen; omega)
  rcases List.eq_nil_or_concat A with rfl | ⟨A', y, hA⟩
  · -- the block is first: the head of the list moves on
    have hb' : buddyListRemove b k t = .ok (some t, (b.setHead k (b.pages t).next).setPage t
        fun q => { q with next := none, freeList := false }) := by
      unfold buddyListRemove; rw [hfind]; rfl
    refine ⟨_, hb', ?_, fun x hx => ?_, fun x hx => ?_, (Lists.takeFirst w.lists hc.1).2.2⟩
    · rw [setPage_self, setHead_pages]
    · unfold next
      rw [setPage_ne _ _ hx, setHead_pages]
    · rw [setPage_ne _ _ fun he : x = t => hx (he ▸ hf), setHead_pages]
  · -- the block before it is linked past it
    rw [List.concat_eq_append] at hA
    subst hA
    rw [List.append_assoc] at hnd hc hm hnot hnd' hmem
    have hyt : y ≠ t := fun he => htA (by simp [he])
    have hyf : free y ∧ ord y = some k := (hm y).mp (by simp)
    have hb' : buddyListRemove b k t
        = .ok (some t, (b.setPage y fun r => { r with next := (b.pages t).next }).setPage t
            fun q => { q with next := none, freeList := false }) := by
      unfold buddyListRemove; rw [hfind]; simp
    have hpages : ∀ x, x ≠ t → x ≠ y →
        ((b.setPage y fun r => { r with next := (b.pages t).next }).setPage t
          fun q => { q with next := none, freeList := false }).pages x = b.pages x := by
      intro x hx hy; rw [setPage_ne _ _ hx, setPage_ne _ _ hy]
    have hself : (((b.setPage y fun r => { r with next := (b.pages t).next }).setPage t
        fun q => { q with next := none, freeList := false }).pages y)
        = { b.pages y with next := (b.pages t).next } := by
      rw [setPage_ne _ _ hyt, setPage_self]
    refine ⟨_, hb', ?_, fun x hx => ?_, fun x hx => ?_, Lists.replace k w.lists (fun _ _ => rfl)
      (fun x _ hxo => ?_) (fun x _ => free_taken ho x) ⟨A' ++ y :: B, ?_, hnd', hmem⟩⟩
    · rw [setPage_self, setPage_ne _ _ (Ne.symm hyt)]
    · unfold next
      by_cases hxy : x = y
      · rw [hxy, hself]
      · rw [hpages x hx hxy]
    · exact hpages x (fun he => hx (he ▸ hf)) fun he => hx (he ▸ hyf.1)
    · unfold next
      rw [hpages x (fun he => hxo (he ▸ ho)) fun he => hxo (he ▸ hyf.2)]
    · refine (Chain.unlink hnd hc).congr fun x hx => ?_
      have hxt : x ≠ t := fun he => hnot (he ▸ hx)
      unfold next
      by_cases hxy : x = y
      · rw [hxy, hself, Function.update_self]
      · rw [hpages x hxt hxy, Function.update_of_ne hxy]

/-- Clearing the link and the flags of the block in flight. -/
theorem Wf.clear (w : Wf b ord free (some p)) :
    Wf (b.setPage p fun q => { q with freeList := false, next := none }) ord free (some p) :=
  w.setPage w.not_free (fun _ _ => .rfl)
    (.inFlight rfl (w.not_first fun _ _ => rfl) (fun _ => rfl) w.not_free rfl)

/-- The end of a merge: the upper half becomes interior, the lower half gains an order. -/
def joinStep (b : Buddy) (lo up : Nat) : Buddy :=
  (b.setPage up fun q => { q with order := 0 }).setPage lo fun q => { q with order := q.order + 1 }

theorem joinStep_next (b : Buddy) (lo up : Nat) : (joinStep b lo up).next = b.next := by
  unfold joinStep
  rw [setPage_next, setPage_next]
  · rfl
  · rfl

theorem joinStep_ne (b : Buddy) {x : Nat} (h1 : x ≠ lo) (h2 : x ≠ up) :
    (joinStep b lo up).pages x = b.pages x := by
  unfold joinStep; rw [setPage_ne _ _ h1, setPage_ne _ _ h2]

/-- The block in flight swallows its free twin. -/
theorem Wf.join (w : Wf b ord free (some p))
    (hp : ord p = some k) (ho : (b.pages p).order = k) (hn : b.next p = none)
    (hk : k < pageMaxOrder) (hf : free t) (ht : ord t = some k)
    (hpair : (lo = p ∧ up = t) ∨ (lo = t ∧ up = p)) (hdvd : 2 ^ (k + 1) ∣ lo)
    (hup : up = lo + 2 ^ k) (hrem : buddyListRemove b k t = .ok (some t, b')) :
    Wf (joinStep b' lo up) (Function.update (Function.update ord up none) lo (some (k + 1)))
        (fun x => free x ∧ x ≠ t) (some lo)
      ∧ ((joinStep b' lo up).pages lo).order = k + 1 ∧ Spared b (joinStep b' lo up) := by
  obtain ⟨b1, hrem', hbt, hbx, hnf, hlists⟩ := buddyListRemove_spec w hf ht
  obtain rfl : b' = b1 := by rw [hrem] at hrem'; injection hrem' with h; exact (Prod.mk.inj h).2
  have hlu : lo ≠ up := by omega
  -- both blocks have order `k`, and neither flag nor link is left
  have hboth : ∀ {x}, x = p ∨ x = t → ord x = some k ∧ (b.pages x).firstPage = false
      ∧ (b'.pages x).freeList = false ∧ (b'.pages x).next = none
      ∧ (b'.pages x).firstPage = false ∧ (b'.pages x).order = k := by
    rintro x (rfl | rfl)
    · have hfirst := w.not_first fun _ _ => rfl
      rw [hnf x w.not_free]
      exact ⟨hp, hfirst, w.freeList_eq_false w.not_free, hn, hfirst, ho⟩
    · have hfirst := w.not_first fun _ h => absurd hf h
      rw [hbt]
      exact ⟨ht, hfirst, rfl, rfl, hfirst, w.order ht (w.freeBlock hf).2⟩
  have hmem : (lo = p ∨ lo = t) ∧ (up = p ∨ up = t) := by
    rcases hpair with ⟨h, h'⟩ | ⟨h, h'⟩
    · exact ⟨.inl h, .inr h'⟩
    · exact ⟨.inr h, .inl h'⟩
  obtain ⟨hlo, hlob, hlof, _, hlo1, hloo⟩ := hboth hmem.1
  obtain ⟨hupo, hupb, hupf, hupn, hup1, _⟩ := hboth hmem.2
  -- a page is one of the pair in both senses or in none
  have hout : ∀ {x}, x ≠ p → x ≠ t → x ≠ lo ∧ x ≠ up := fun h1 h2 =>
    ⟨fun he => hmem.1.elim (fun h => h1 (he.trans h)) fun h => h2 (he.trans h),
      fun he => hmem.2.elim (fun h => h1 (he.trans h)) fun h => h2 (he.trans h)⟩
  have hin : ∀ {x}, x ≠ lo → x ≠ up → x ≠ p ∧ x ≠ t := by
    intro x h1 h2
    rcases hpair with ⟨rfl, rfl⟩ | ⟨rfl, rfl⟩
    · exact ⟨h1, h2⟩
    · exact ⟨h2, h1⟩
  have hself : (joinStep b' lo up).pages lo
      = { b'.pages lo with order := (b'.pages lo).order + 1 } := by
    unfold joinStep
    rw [setPage_self, setPage_ne _ _ hlu]
  have hupper : (joinStep b' lo up).pages up = { b'.pages up with order := 0 } := by
    unfold joinStep
    rw [setPage_ne _ _ (Ne.symm hlu), setPage_self]
  have htiling := hup ▸ w.tiling.merge hlo (hup ▸ hupo) hdvd hk
  generalize hord' : Function.update (Function.update ord up none) lo (some (k + 1)) = ord'
    at htiling ⊢
  have hold : ∀ {x}, x ≠ lo → x ≠ up → ord' x = ord x := by
    intro x h1 h2
    rw [← hord', Function.update_of_ne h1, Function.update_of_ne h2]
  have hfree : ∀ {x}, free x → x ≠ t → x ≠ lo ∧ ord' x = ord x := by
    intro x hx hxt
    obtain ⟨h1, h2⟩ := hout (fun h => w.not_free (h ▸ hx)) hxt
    exact ⟨h1, hold h1 h2⟩
  refine ⟨.of_mirrors htiling (fun hx => ?_) (fun x => ?_) (fun j => ?_) ?_, ?_, fun x => ?_⟩
  · obtain ⟨h1, h2⟩ := hfree hx.1 hx.2
    rw [h2]
    exact ⟨(w.freeBlock hx.1).1, fun h => h1 (Option.some.inj h).symm⟩
  · have hnone : ∀ {x}, x = p ∨ x = t → ¬ (free x ∧ x ≠ t) := fun h hx =>
      h.elim (fun h => w.not_free (h ▸ hx.1)) hx.2
    by_cases hxl : x = lo
    · subst hxl
      rw [hself]
      refine .inFlight hlof hlo1 (fun h => ?_) (hnone hmem.1) rfl
      rw [← hord', Function.update_self] at h
      cases h
    by_cases hxu : x = up
    · subst hxu
      have hgone : ord' x = none := by
        rw [← hord', Function.update_of_ne hxl, Function.update_self]
      rw [hupper, hgone]
      exact ⟨by simp [hupf, hnone hmem.2], by simp [hup1], by simp, fun _ => hupn⟩
    obtain ⟨h1, h2⟩ := hin hxl hxu
    have hf : free x ∧ x ≠ t ↔ free x := by simp [h2]
    have hm := (w.mirrors x).congr hf (show some lo = some x ↔ _ by simp [Ne.symm hxl, Ne.symm h1])
    rw [joinStep_ne b' hxl hxu, hold hxl hxu]
    by_cases hfx : free x
    · obtain ⟨j, hj⟩ := (w.freeBlock hfx).1
      rw [hbx x h2]
      exact ⟨hm.freeFlag, hm.firstFlag, hm.order, fun h => absurd (hj.symm.trans h) (by simp)⟩
    · rw [hnf x hfx]
      exact hm
  · rw [joinStep_next]
    obtain ⟨l, hc, hnd, hm⟩ := hlists j
    refine ⟨l, hc, hnd, fun x => (hm x).trans (and_congr_right fun hx => ?_)⟩
    rw [(hfree hx.1 hx.2).2]
  · intro x j hx hj hlt htx
    rw [(hfree hx.1 hx.2).2] at hj
    rw [(hfree htx.1 htx.2).2]
    exact w.apart hx.1 hj hlt htx.1
  · rw [hself, hloo]
  · -- neither block of the pair was allocated, and no free one is
    by_cases hxl : x = lo
    · rw [hxl, hself, hlob]
      exact ⟨hlo1, fun h => absurd h (by simp)⟩
    by_cases hxu : x = up
    · rw [hxu, hupper, hupb]
      exact ⟨hup1, fun h => absurd h (by simp)⟩
    · rw [joinStep_ne b' hxl hxu]
      exact ⟨by rw [hbx x (hin hxl hxu).2], fun hx => hnf x (w.firstFlag.mp hx).2.1⟩

/--
**`buddy_free` keeps the picture and never meets a broken page.** The induction is
on the rounds left; every round that merges raises the order of the block in
flight, and a block of the top order is pushed.
-/
theorem buddyFreeLoop_wf : ∀ (fuel : Nat) {b : Buddy} {ord : Nat → Option Nat}
    {free : Nat → Prop} {p k : Nat},
    Wf (b.setPage p fun q => { q with firstPage := false }) ord free (some p) →
    ord p = some k → (b.pages p).order = k → pageMaxDepth ≤ k + fuel →
    ∃ b' ord' free', buddyFreeLoop fuel b p = .ok b' ∧ Wf b' ord' free' none
      ∧ Spared (b.setPage p fun q => { q with firstPage := false }) b'
  | 0, b, ord, free, p, k, w, hp, _, hfuel => by
    have := w.tiling.top hp
    unfold pageMaxDepth at hfuel
    omega
  | fuel + 1, b, ord, free, p, k, w, hp, ho, hfuel => by
    have ho1 : ((b.setPage p fun q => { q with firstPage := false }).pages p).order = k := by
      rw [setPage_self]; exact ho
    have htw : buddyFindBuddyIndex b p = twin p k := by rw [buddyFindBuddyIndex_eq, ho]
    rw [buddyFreeLoop]
    simp only [htw, ho]
    generalize hb1 : (b.setPage p fun q => { q with firstPage := false }) = b1 at w ho1 ⊢
    have hcleared : (b1.pages p).firstPage = false := w.not_first fun _ _ => rfl
    by_cases hpush : k = pageMaxOrder ∨ buddyIsFreeBuddy b1 p (twin p k) = false
    · -- nothing to merge with
      rw [if_pos hpush]
      refine ⟨_, ord, _, rfl, w.push hp ho1 ?_, fun x => ?_⟩
      · intro hlt hft hot
        rcases hpush with h | h
        · omega
        · have h1 := w.freeFlag.mpr hft
          have h2 := w.order hot (w.freeBlock hft).2
          rw [buddyIsFreeBuddy, h1, h2, ho1] at h
          simp at h
      · by_cases hx : x = p
        · rw [hx, buddyListPush_self, hcleared]
          exact ⟨rfl, fun h => absurd h (by simp)⟩
        · rw [buddyListPush_ne _ _ hx]
          exact ⟨rfl, fun _ => rfl⟩
    · rw [if_neg hpush]
      rw [not_or, Bool.not_eq_false] at hpush
      obtain ⟨hk, hbud⟩ := hpush
      have hlt : k < pageMaxOrder := Nat.lt_of_le_of_ne (w.tiling.top hp) hk
      simp only [buddyIsFreeBuddy, ho1, Bool.and_eq_true, beq_iff_eq] at hbud
      have hft : free (twin p k) := w.freeFlag.mp hbud.1
      have hot : ord (twin p k) = some k := by
        obtain ⟨j, hj⟩ := (w.freeBlock hft).1
        rw [hj, ← hbud.2, w.order hj (w.freeBlock hft).2]
      have w2 := w.clear
      have ho2 : ((b1.setPage p fun q => { q with freeList := false, next := none }).pages p).order
          = k := by rw [setPage_self]; exact ho1
      have hn2 : (b1.setPage p fun q => { q with freeList := false, next := none }).next p
          = none := by unfold next; rw [setPage_self]
      have hs2 : Spared b1 (b1.setPage p fun q => { q with freeList := false, next := none }) :=
        .setPage hcleared hcleared
      obtain ⟨b3, hrem, _⟩ := buddyListRemove_spec w2 hft hot
      rw [hrem]
      dsimp only
      -- one more round, from whichever half is the lower one
      have round : ∀ {lo up : Nat}, ((lo = p ∧ up = twin p k) ∨ (lo = twin p k ∧ up = p)) →
          2 ^ (k + 1) ∣ lo → up = lo + 2 ^ k →
          ∃ b' ord' free', buddyFreeLoop fuel (joinStep b3 lo up) lo = .ok b'
            ∧ Wf b' ord' free' none ∧ Spared b1 b' := by
        intro lo up hpair hdvd hup
        obtain ⟨w4, ho4, hs4⟩ := w2.join hp ho2 hn2 hlt hft hot hpair hdvd hup hrem
        have hsame : (joinStep b3 lo up).setPage lo (fun q => { q with firstPage := false })
            = joinStep b3 lo up := by
          refine setPage_eq_self _ ?_
          rw [← w4.not_first fun _ _ => rfl]
        obtain ⟨b', ord', free', h1, h2, h3⟩ :=
          buddyFreeLoop_wf fuel (hsame ▸ w4) (by simp) ho4 (by omega)
        exact ⟨b', ord', free', h1, h2, (hs2.trans hs4).trans (hsame ▸ h3)⟩
      have hbit : ((twin p k >>> k) &&& 0x1 ≠ 0) ↔ twin p k / 2 ^ k % 2 = 1 := by
        rw [Nat.and_one_is_mod]; omega
      have hpos : 0 < 2 ^ k := Nat.two_pow_pos k
      rcases parent_cases (w.tiling.aligned hp) with ⟨hd, ht⟩ | ⟨hd, ht, _⟩
      · -- the twin is the upper half
        have hodd : twin p k / 2 ^ k % 2 = 1 := by
          obtain ⟨c, hc⟩ := hd
          rw [ht, Nat.add_div_right _ hpos, hc, Nat.pow_succ, Nat.mul_assoc,
            Nat.mul_div_cancel_left _ hpos]
          omega
        rw [if_pos (hbit.mpr hodd)]
        exact round (Or.inl ⟨rfl, rfl⟩) hd ht
      · have heven : ¬ twin p k / 2 ^ k % 2 = 1 := by
          obtain ⟨c, hc⟩ := hd
          rw [hc, Nat.pow_succ, Nat.mul_assoc, Nat.mul_div_cancel_left _ hpos]
          omega
        rw [if_neg (fun h => heven (hbit.mp h))]
        exact round (Or.inr ⟨rfl, rfl⟩) hd ht

theorem buddyFree_wf (w : Wf b ord free none) (hp : (b.pages p).firstPage = true) :
    ∃ b' ord' free', buddyFree b p = .ok b' ∧ Wf b' ord' free' none
      ∧ (∀ x, x ≠ p → (b.pages x).firstPage = true → b'.pages x = b.pages x)
      ∧ ∀ x, (b'.pages x).firstPage = true → x ≠ p ∧ (b.pages x).firstPage = true := by
  obtain ⟨⟨k, hk⟩, hnf, _⟩ := w.firstFlag.mp hp
  have w1 : Wf (b.setPage p fun q => { q with firstPage := false }) ord free (some p) :=
    w.setPage hnf (fun x hx => by simp [Ne.symm hx])
      (.inFlight (w.freeList_eq_false hnf) rfl (w.mirrors p).interior hnf rfl)
  obtain ⟨b', ord', free', hok, w', hs⟩ := buddyFreeLoop_wf pageMaxDepth w1 hk (w.order hk (by simp)) (by omega)
  have hpages : ∀ {x}, x ≠ p → (b.setPage p fun q => { q with firstPage := false }).pages x = b.pages x :=
    fun hx => setPage_ne b _ hx
  refine ⟨b', ord', free', hok, w', fun x hx hfx => ?_, fun x hfx => ?_⟩
  · exact ((hs x).2 (by rw [hpages hx]; exact hfx)).trans (hpages hx)
  · have hx : x ≠ p := by
      rintro rfl
      rw [(hs x).1, setPage_self] at hfx
      cases hfx
    rw [(hs x).1, hpages hx] at hfx
    exact ⟨hx, hfx⟩

end Cyanurus.Buddy
