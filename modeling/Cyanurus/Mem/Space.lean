import Cyanurus.Mem.Mmu

/-!
# Address spaces

What the tables of one mapping mean: for every page of the virtual address space either
nothing, an address that only the kernel may use, or a page of the pool that the process
may use. `Shows m sp` says that the words in memory spell out `sp`; the walk of the
memory-management unit then finds what `sp` says (`Shows.translate`).

The pages of a space have one place each: the level-1 table, a level-2 table, or one page
of the process (`Space.Ok.once`). A page that was not in use can be put in any place, and
this is all the kernel does.
-/

namespace Cyanurus

open Bytes

/-- What a page of the virtual address space is mapped to. -/
inductive Leaf where
  | none
  /-- An address for the kernel only. -/
  | kernel (address : Nat)
  /-- A page of the pool, for everyone. -/
  | user (page : Nat)
deriving DecidableEq, Repr

/-- The level-2 entry. -/
def Leaf.word : Leaf → Nat
  | .none => 0
  | .kernel address => address + 0x12
  | .user page => pageAddress page + 0x32

/-- The tables of a mapping. -/
structure Space where
  /-- The first page of the level-1 table. -/
  root : Nat
  /-- The page of the level-2 table for a megabyte. -/
  table : Nat → Option Nat
  /-- What the pages of the virtual address space are mapped to. -/
  leaf : Nat → Leaf

namespace Space

/-- The place of a page in a space. -/
inductive Slot where
  | root
  | table (i : Nat)
  | user (v : Nat)
deriving DecidableEq

/-- The page in a place. -/
def pageAt (sp : Space) : Slot → Option Nat
  | .root => some sp.root
  | .table i => sp.table i
  | .user v =>
    match sp.leaf v with
    | .user p => some p
    | _ => none

theorem pageAt_user {sp : Space} {v p : Nat} (h : sp.leaf v = .user p) : sp.pageAt (.user v) = some p := by
  unfold pageAt
  dsimp only
  rw [h]

theorem pageAt_bare {sp : Space} {v : Nat} (h : ∀ p, sp.leaf v ≠ .user p) : sp.pageAt (.user v) = none := by
  unfold pageAt
  dsimp only
  split
  · exact absurd ‹_› (h _)
  · rfl

/-- Nothing is mapped. -/
def empty (root : Nat) : Space := ⟨root, fun _ => none, fun _ => .none⟩

def addTable (sp : Space) (i t : Nat) : Space := { sp with table := Function.update sp.table i (some t) }

def setLeaf (sp : Space) (v : Nat) (l : Leaf) : Space := { sp with leaf := Function.update sp.leaf v l }

@[simp] theorem addTable_root (sp : Space) (i t : Nat) : (sp.addTable i t).root = sp.root := rfl

@[simp] theorem addTable_leaf (sp : Space) (i t : Nat) : (sp.addTable i t).leaf = sp.leaf := rfl

@[simp] theorem addTable_self (sp : Space) (i t : Nat) : (sp.addTable i t).table i = some t := by
  simp [addTable]

theorem addTable_ne (sp : Space) {i j : Nat} (t : Nat) (h : j ≠ i) :
    (sp.addTable i t).table j = sp.table j := by simp [addTable, h]

@[simp] theorem setLeaf_root (sp : Space) (v : Nat) (l : Leaf) : (sp.setLeaf v l).root = sp.root := rfl

@[simp] theorem setLeaf_table (sp : Space) (v : Nat) (l : Leaf) :
    (sp.setLeaf v l).table = sp.table := rfl

@[simp] theorem setLeaf_self (sp : Space) (v : Nat) (l : Leaf) : (sp.setLeaf v l).leaf v = l := by
  simp [setLeaf]

theorem setLeaf_ne (sp : Space) {v w : Nat} (l : Leaf) (h : w ≠ v) :
    (sp.setLeaf v l).leaf w = sp.leaf w := by simp [setLeaf, h]

theorem pageAt_addTable (sp : Space) (i t : Nat) (slot : Slot) :
    (sp.addTable i t).pageAt slot = if slot = .table i then some t else sp.pageAt slot := by
  cases slot with
  | root => rfl
  | table j =>
    by_cases h : j = i
    · subst h
      simp [pageAt]
    · simp [pageAt, addTable_ne sp t h, h]
  | user v => rfl

theorem pageAt_setLeaf (sp : Space) (v : Nat) (l : Leaf) (slot : Slot) :
    (sp.setLeaf v l).pageAt slot = if slot = .user v then
      (match l with | .user p => some p | _ => none) else sp.pageAt slot := by
  cases slot with
  | root => rfl
  | table j => rfl
  | user w =>
    by_cases h : w = v
    · subst h
      simp [pageAt]
    · simp [pageAt, setLeaf_ne sp l h, h]

/-- The page and the four pages of the level-1 table do not meet. -/
def Clear (root p : Nat) : Prop := p < root ∨ root + 4 ≤ p

/-- The places of the pages of the list. -/
structure Placed (sp : Space) (owned : List Nat) : Prop where
  held : ∀ {slot p}, sp.pageAt slot = some p → p ∈ owned
  /-- No page has two places. -/
  once : ∀ {slot slot' p}, sp.pageAt slot = some p → sp.pageAt slot' = some p → slot = slot'
  clear : ∀ {slot p}, slot ≠ .root → sp.pageAt slot = some p → Clear sp.root p

/-- A space made of the pages of the list. -/
structure Ok (sp : Space) (owned : List Nat) : Prop extends sp.Placed owned where
  /-- Without a table nothing is mapped. -/
  bare : ∀ {v}, sp.table (v / 256) = none → sp.leaf v = .none
  aligned : ∀ {v a}, sp.leaf v = .kernel a → a % 4096 = 0

variable {sp sp' : Space} {owned : List Nat} {p t i v : Nat}

theorem Placed.root_mem (h : sp.Placed owned) : sp.root ∈ owned :=
  have hat : sp.pageAt .root = some sp.root := rfl
  h.held hat

theorem Placed.table_mem (h : sp.Placed owned) (ht : sp.table i = some t) : t ∈ owned :=
  have hat : sp.pageAt (.table i) = some t := ht
  h.held hat

/-- **A page that is not in use can be put in any place.** -/
theorem Placed.put {slot : Slot} (h : sp.Placed owned) (hp : p ∉ owned) (hc : Clear sp.root p)
    (hroot : sp'.root = sp.root)
    (hat : ∀ slot', sp'.pageAt slot' = if slot' = slot then some p else sp.pageAt slot') :
    sp'.Placed (p :: owned) := by
  have hcases : ∀ {slot' q}, sp'.pageAt slot' = some q →
      (slot' = slot ∧ q = p) ∨ sp.pageAt slot' = some q := by
    intro slot' q hq
    rw [hat] at hq
    split at hq
    · exact Or.inl ⟨‹_›, (Option.some.inj hq).symm⟩
    · exact Or.inr hq
  refine ⟨fun {slot' q} hq => ?_, fun {slot₁ slot₂ q} h1 h2 => ?_, fun {slot' q} hne hq => ?_⟩
  · rcases hcases hq with ⟨_, rfl⟩ | hq
    · exact List.mem_cons_self ..
    · exact List.mem_cons_of_mem _ (h.held hq)
  · rcases hcases h1 with ⟨e1, rfl⟩ | h1
    · rcases hcases h2 with ⟨e2, _⟩ | h2
      · rw [e1, e2]
      · exact absurd (h.held h2) hp
    · rcases hcases h2 with ⟨_, rfl⟩ | h2
      · exact absurd (h.held h1) hp
      · exact h.once h1 h2
  · rw [hroot]
    rcases hcases hq with ⟨_, rfl⟩ | hq
    · exact hc
    · exact h.clear hne hq

theorem Ok.mono {owned' : List Nat} (ok : sp.Ok owned) (h : owned ⊆ owned') : sp.Ok owned' :=
  { ok with held := fun hp => h (ok.held hp) }

theorem ok_empty (root : Nat) : (empty root).Ok [root] := by
  have hroot : ∀ {slot p}, (empty root).pageAt slot = some p → slot = .root ∧ p = root := by
    intro slot p h
    cases slot with
    | root => exact ⟨rfl, (Option.some.inj h).symm⟩
    | _ => cases h
  refine ⟨⟨fun h => ?_, fun h h' => ?_, fun hne h => ?_⟩, fun _ => rfl, fun h => ?_⟩
  · rw [(hroot h).2]
    exact List.mem_singleton.mpr rfl
  · rw [(hroot h).1, (hroot h').1]
  · exact absurd (hroot h).1 hne
  · cases h

theorem Ok.addTable (ok : sp.Ok owned) (ht : t ∉ owned) (hc : Clear sp.root t) :
    (sp.addTable i t).Ok (t :: owned) := by
  refine ⟨ok.toPlaced.put ht hc rfl (pageAt_addTable sp i t), fun {v} h => ?_, ok.aligned⟩
  by_cases hv : v / 256 = i
  · rw [hv, addTable_self] at h
    cases h
  · rw [addTable_ne sp t hv] at h
    exact ok.bare h

/-- Under a table a page may be mapped to anything. -/
theorem Ok.bare_setLeaf (ok : sp.Ok owned) {l : Leaf} (ht : sp.table (v / 256) = some t) {w : Nat}
    (h : sp.table (w / 256) = none) : (sp.setLeaf v l).leaf w = .none := by
  rw [setLeaf_ne sp l fun he => ?_]
  · exact ok.bare h
  · rw [he, ht] at h
    cases h

theorem Ok.setUser (ok : sp.Ok owned) (hp : p ∉ owned) (hc : Clear sp.root p)
    (ht : sp.table (v / 256) = some t) : (sp.setLeaf v (.user p)).Ok (p :: owned) := by
  refine ⟨ok.toPlaced.put hp hc rfl (pageAt_setLeaf sp v (.user p)), ok.bare_setLeaf ht,
    fun {w a} h => ?_⟩
  by_cases hw : w = v
  · rw [hw, setLeaf_self] at h
    cases h
  · rw [setLeaf_ne sp _ hw] at h
    exact ok.aligned h

theorem Ok.setKernel {a : Nat} (ok : sp.Ok owned) (ha : a % 4096 = 0)
    (ht : sp.table (v / 256) = some t) : (sp.setLeaf v (.kernel a)).Ok owned := by
  have hat : ∀ {slot q}, (sp.setLeaf v (.kernel a)).pageAt slot = some q → sp.pageAt slot = some q := by
    intro slot q h
    rw [pageAt_setLeaf] at h
    split at h
    · cases h
    · exact h
  refine ⟨⟨fun h => ok.held (hat h), fun h h' => ok.once (hat h) (hat h'),
    fun hne h => ok.clear hne (hat h)⟩, ok.bare_setLeaf ht, fun {w b} h => ?_⟩
  by_cases hw : w = v
  · rw [hw, setLeaf_self] at h
    cases h
    exact ha
  · rw [setLeaf_ne sp _ hw] at h
    exact ok.aligned h

/-- A run of pages mapped one to one for the kernel. -/
def mapKernel (sp : Space) (v a n : Nat) : Space :=
  { sp with leaf := fun w => if v ≤ w ∧ w < v + n then .kernel (a + 4096 * (w - v)) else sp.leaf w }

theorem mapKernel_zero (sp : Space) (v a : Nat) : sp.mapKernel v a 0 = sp := by
  have hleaf : (fun w => if v ≤ w ∧ w < v + 0 then Leaf.kernel (a + 4096 * (w - v)) else sp.leaf w) = sp.leaf := by
    funext w
    rw [if_neg (by omega)]
  unfold mapKernel
  rw [hleaf]

theorem mapKernel_succ (sp : Space) (v a n : Nat) :
    sp.mapKernel v a (n + 1) = (sp.mapKernel v a n).setLeaf (v + n) (.kernel (a + 4096 * n)) := by
  unfold mapKernel
  congr 1
  funext w
  by_cases he : w = v + n
  · subst he
    rw [Function.update_self, if_pos (by omega), Nat.add_sub_cancel_left]
  · rw [Function.update_of_ne he]
    dsimp only
    by_cases hw : v ≤ w ∧ w < v + n
    · rw [if_pos hw, if_pos (by omega)]
    · rw [if_neg hw, if_neg (by omega)]

/-- The address is in none of the tables. -/
def Off (sp : Space) (a : Nat) : Prop :=
  (a < pageAddress sp.root ∨ pageAddress sp.root + l1Size ≤ a) ∧
    ∀ {i t}, sp.table i = some t → a < pageAddress t ∨ pageAddress t + pageSize ≤ a

/-- The tables of one space are tables of the other. -/
structure More (sp sp' : Space) : Prop where
  root : sp'.root = sp.root
  table : ∀ {i t}, sp.table i = some t → sp'.table i = some t

theorem More.refl (sp : Space) : sp.More sp := ⟨rfl, id⟩

theorem More.trans {sp'' : Space} (h : sp.More sp') (h' : sp'.More sp'') : sp.More sp'' :=
  ⟨h'.root.trans h.root, fun ht => h'.table (h.table ht)⟩

theorem More.off {a : Nat} (h : sp.More sp') (ha : sp'.Off a) : sp.Off a :=
  ⟨by rw [← h.root]; exact ha.1, fun ht => ha.2 (h.table ht)⟩

end Space

/-! ## Tables in memory -/

/-- The level-1 entry. -/
def tableWord : Option Nat → Nat
  | none => 0
  | some t => pageAddress t + 1

/-- The words in memory spell out the space. -/
structure Shows (m : Bytes) (sp : Space) : Prop where
  l1 : ∀ {i}, i < l1EntryNum → m.load 4 (pageAddress sp.root + 4 * i) = tableWord (sp.table i)
  l2 : ∀ {i t}, sp.table i = some t → ∀ {j}, j < l2EntryNum →
    m.load 4 (pageAddress t + 4 * j) = (sp.leaf (256 * i + j)).word

namespace Shows

open Space

variable {m m' : Bytes} {sp : Space} {owned : List Nat} {p t i v : Nat}

theorem congr (h : Shows m sp) (h1 : Agree m m' (pageAddress sp.root) l1Size)
    (h2 : ∀ {i t}, sp.table i = some t → Agree m m' (pageAddress t) l2Size) : Shows m' sp := by
  unfold l1Size l1EntryNum at h1
  unfold l2Size l2EntryNum at h2
  refine ⟨fun {i} hi => ?_, fun {i t} ht j hj => ?_⟩
  · unfold l1EntryNum at hi
    rw [load_congr (h1.sub (by omega) (by omega))]
    exact h.l1 hi
  · unfold l2EntryNum at hj
    rw [load_congr ((h2 ht).sub (by omega) (by omega))]
    exact h.l2 ht hj

/-- A cleared level-1 table maps nothing. -/
theorem empty (m : Bytes) (root : Nat) : Shows (m.fill (pageAddress root) l1Size 0) (Space.empty root) := by
  refine ⟨fun {i} hi => ?_, fun h => by cases h⟩
  unfold l1EntryNum at hi
  show load _ 4 (pageAddress root + 4 * i) = 0
  exact load_fill_zero m (Nat.le_add_right ..) (by unfold l1Size l1EntryNum; omega)

theorem page_lt (hp : p < pageNum) : pageAddress p < 2 ^ 32 - 4096 := by
  unfold pageAddress pageStart pageSize pageNum at *
  omega

theorem page_dvd (p : Nat) : 2 ^ 12 ∣ pageAddress p := by
  unfold pageAddress pageStart pageSize
  omega

/-- The entry for a level-2 table. -/
theorem table_word (ht : t < pageNum) :
    (0xfffffc00 &&& pageAddress t ||| flPageTable) = tableWord (some t) := by
  have hlt := page_lt ht
  have hand : 0xfffffc00 &&& pageAddress t = pageAddress t := by
    refine (and_high (k := 10) (n := 32) (by decide) (by omega)).trans ?_
    have := page_dvd t
    omega
  rw [hand]
  exact or_low (page_dvd t) (by decide)

/-- Distinct pages do not overlap. -/
theorem pages_apart {q n k : Nat} (h : p ≠ q) (hn : n ≤ pageSize) (hk : k ≤ pageSize) :
    Apart (pageAddress p) n (pageAddress q) k := by
  unfold Apart pageAddress pageSize at *
  omega

/-- A page that is clear of the level-1 table does not overlap it. -/
theorem root_apart {root k : Nat} (h : Space.Clear root p) (hk : k ≤ pageSize) :
    Apart (pageAddress p) k (pageAddress root) l1Size := by
  unfold Space.Clear at h
  unfold Apart pageAddress pageSize l1Size l1EntryNum at *
  omega

/-- A cleared page becomes the table of a megabyte that had none. -/
theorem addTable (h : Shows m sp) (ok : sp.Ok owned) (hi : i < l1EntryNum) (hnone : sp.table i = none)
    (hnot : t ∉ owned) (hc : Space.Clear sp.root t) (ht : t < pageNum) :
    Shows ((m.fill (pageAddress t) l2Size 0).store 4 (pageAddress sp.root + 4 * i)
      (0xfffffc00 &&& pageAddress t ||| flPageTable)) (sp.addTable i t) := by
  have hlt := page_lt ht
  have hap := root_apart hc (k := l2Size) (by decide)
  rw [table_word ht]
  unfold l1EntryNum at hi
  unfold Apart l1Size l1EntryNum at hap
  refine ⟨fun {k} hk => ?_, fun {k t'} hk j hj => ?_⟩
  · unfold l1EntryNum at hk
    rw [addTable_root]
    by_cases he : k = i
    · subst he
      rw [load_store_self, addTable_self]
      exact Nat.mod_eq_of_lt (by show pageAddress t + 1 < _; omega)
    · rw [load_store_apart _ _ (by unfold Apart; omega), load_congr (fill_agree m 0 (by unfold Apart; omega)),
        addTable_ne sp t he]
      exact h.l1 hk
  · unfold l2EntryNum at hj
    rw [addTable_leaf]
    by_cases he : k = i
    · subst he
      obtain rfl : t = t' := by rw [addTable_self] at hk; exact Option.some.inj hk
      rw [load_store_apart _ _ (by unfold Apart l2Size l2EntryNum at *; omega),
        load_fill_zero m (by omega) (by unfold l2Size l2EntryNum; omega), ok.bare]
      · rfl
      · rw [show (256 * k + j) / 256 = k by omega]
        exact hnone
    · rw [addTable_ne sp t he] at hk
      have hk' : sp.pageAt (.table k) = some t' := hk
      have hne : t ≠ t' := fun h => hnot (h ▸ ok.held hk')
      have hap' := root_apart (ok.clear (by simp) hk') (k := pageSize) (Nat.le_refl _)
      have hap'' := pages_apart hne (n := l2Size) (k := pageSize) (by decide) (Nat.le_refl _)
      unfold Apart l1Size l1EntryNum pageSize at *
      rw [load_store_apart _ _ (by unfold Apart; omega), load_congr (fill_agree m 0 (by unfold Apart; omega))]
      exact h.l2 hk hj

/-- Writing an entry maps its page. -/
theorem setLeaf (h : Shows m sp) (ok : sp.Ok owned) {j : Nat} {l : Leaf} (ht : sp.table i = some t)
    (hj : j < l2EntryNum) (hl : l.word < 2 ^ 32) :
    Shows (m.store 4 (pageAddress t + 4 * j) l.word) (sp.setLeaf (256 * i + j) l) := by
  have ht' : sp.pageAt (.table i) = some t := ht
  have hap := root_apart (ok.clear (by simp) ht') (k := pageSize) (Nat.le_refl _)
  unfold l2EntryNum at hj
  unfold Apart l1Size l1EntryNum pageSize at hap
  refine ⟨fun {k} hk => ?_, fun {k t'} hk j' hj' => ?_⟩
  · unfold l1EntryNum at hk
    rw [setLeaf_root, load_store_apart _ _ (by unfold Apart; omega)]
    exact h.l1 hk
  · unfold l2EntryNum at hj'
    rw [setLeaf_table] at hk
    by_cases he : k = i
    · subst he
      obtain rfl : t = t' := by rw [ht] at hk; exact Option.some.inj hk
      by_cases hjj : j' = j
      · subst hjj
        rw [load_store_self, setLeaf_self]
        exact Nat.mod_eq_of_lt hl
      · rw [load_store_apart _ _ (by unfold Apart; omega), setLeaf_ne sp l (by omega)]
        exact h.l2 hk hj'
    · have hk' : sp.pageAt (.table k) = some t' := hk
      have hne : t ≠ t' := by
        rintro rfl
        have := ok.once ht' hk'
        simp only [Slot.table.injEq] at this
        exact he this.symm
      have hap' := pages_apart hne (n := pageSize) (k := pageSize) (Nat.le_refl _) (Nat.le_refl _)
      unfold Apart pageSize at hap'
      rw [load_store_apart _ _ (by unfold Apart; omega), setLeaf_ne sp l (by omega)]
      exact h.l2 hk hj'

/-- The entries that `mmu_create_straight_mapping` writes. -/
theorem straight (h : Shows m sp) (ok : sp.Ok owned) {j : Nat} (addr : Nat) (ht : sp.table i = some t) :
    ∀ {n : Nat}, j + n ≤ l2EntryNum → addr / 4096 + n ≤ 2 ^ 20 →
      Shows (Mmu.straightLoop m (pageAddress t) j addr n)
          (sp.mapKernel (256 * i + j) (addr / 4096 * 4096) n)
        ∧ (sp.mapKernel (256 * i + j) (addr / 4096 * 4096) n).Ok owned := by
  intro n
  induction n with
  | zero =>
    intro _ _
    rw [mapKernel_zero]
    exact ⟨h, ok⟩
  | succ n ih =>
    intro hj hn
    obtain ⟨hs, hok⟩ := ih (by omega) (by omega)
    have hmask : addr &&& 0xfffff000 = addr / 4096 * 4096 := by
      rw [Nat.and_comm]
      exact and_high (k := 12) (n := 32) (by decide) (by omega)
    have hword : (addr / 4096 * 4096 + pageSize * n ||| slShortDescriptor ||| apPrivilegedAccess)
        = (Leaf.kernel (addr / 4096 * 4096 + 4096 * n)).word := by
      have hd : 2 ^ 12 ∣ addr / 4096 * 4096 + pageSize * n := by
        unfold pageSize
        omega
      rw [Nat.or_assoc]
      exact or_low hd (by decide)
    rw [Mmu.straightLoop, mapKernel_succ, hmask, hword, Nat.add_assoc]
    refine ⟨hs.setLeaf hok ht (by omega) ?_, hok.setKernel (by omega) (t := t) ?_⟩
    · show addr / 4096 * 4096 + 4096 * n + 0x12 < _
      omega
    · unfold l2EntryNum at hj
      rw [show (256 * i + (j + n)) / 256 = i by omega]
      exact ht

/-- They all lie in the one table. -/
theorem straight_agree (m : Bytes) {pl2 j addr a : Nat} (ha : a < pl2 ∨ pl2 + pageSize ≤ a) :
    ∀ {n : Nat}, j + n ≤ l2EntryNum → Mmu.straightLoop m pl2 j addr n a = m a := by
  intro n
  induction n with
  | zero =>
    intro _
    rfl
  | succ n ih =>
    intro hj
    have hout := store_agree (Mmu.straightLoop m pl2 j addr n) (n := 4) (a := pl2 + 4 * (j + n)) (b := a) (k := 1)
      ((addr &&& 0xfffff000) + pageSize * n ||| slShortDescriptor ||| apPrivilegedAccess)
      (by unfold Apart l2EntryNum pageSize at *; omega)
    rw [Mmu.straightLoop, hout a (Nat.le_refl a) (Nat.lt_succ_self a)]
    exact ih (by omega)

/-- The entry that the walk finds. -/
theorem lookup (h : Shows m sp) {va : Nat} (hva : va < 2 ^ 32) :
    lookupEntry m (pageAddress sp.root) va
      = (sp.table (va / 2 ^ 20)).map fun _ => (sp.leaf (va / 2 ^ 12)).word := by
  unfold lookupEntry
  rw [h.l1 (by unfold l1EntryNum; omega)]
  cases ht : sp.table (va / 2 ^ 20) with
  | none =>
    rfl
  | some t =>
    have hd := page_dvd t
    have hw : tableWord (some t) = pageAddress t + 1 := rfl
    rw [hw, if_pos (by unfold flPageTable; omega), show (pageAddress t + 1) / 1024 * 1024 = pageAddress t by omega,
      h.l2 ht (by unfold l2EntryNum; omega)]
    simp only [Option.map_some]
    rw [show 256 * (va / 2 ^ 20) + va / 2 ^ 12 % 256 = va / 2 ^ 12 by omega]

end Shows

theorem entryAccess_kernel {a : Nat} (h : a % 4096 = 0) : entryAccess (a + 0x12) = .privileged := by
  unfold entryAccess
  rw [show (a + 0x12) / 16 % 4 = 1 by omega]
  rfl

theorem entryAccess_user (p : Nat) : entryAccess (pageAddress p + 0x32) = .full := by
  have hd := Shows.page_dvd p
  unfold entryAccess
  rw [show (pageAddress p + 0x32) / 16 % 4 = 3 by omega]
  rfl

/-- What the space makes of an address. -/
def Space.translate (sp : Space) (va : Nat) : Option (Nat × Access) :=
  match sp.leaf (va / 2 ^ 12) with
  | .none => none
  | .kernel a => some (a + va % 4096, .privileged)
  | .user p => some (pageAddress p + va % 4096, .full)

/-- **The memory-management unit finds what the space says.** -/
theorem Shows.translate {m : Bytes} {sp : Space} {owned : List Nat} {va : Nat} (h : Shows m sp)
    (ok : sp.Ok owned) (hva : va < 2 ^ 32) :
    Cyanurus.translate m (pageAddress sp.root) va = sp.translate va := by
  unfold Cyanurus.translate Space.translate
  rw [h.lookup hva]
  cases ht : sp.table (va / 2 ^ 20) with
  | none =>
    rw [ok.bare (v := va / 2 ^ 12) (by rw [show va / 2 ^ 12 / 256 = va / 2 ^ 20 by omega]; exact ht)]
    rfl
  | some t =>
    simp only [Option.map_some]
    cases hl : sp.leaf (va / 2 ^ 12) with
    | none => rfl
    | kernel a =>
      have ha := ok.aligned hl
      simp only [Leaf.word, entryAccess_kernel ha]
      rw [if_pos (by omega), show (a + 0x12) / 4096 * 4096 = a by omega]
    | user p =>
      have hd := page_dvd p
      simp only [Leaf.word, entryAccess_user]
      rw [if_pos (by omega), show (pageAddress p + 0x32) / 4096 * 4096 = pageAddress p by omega]

end Cyanurus
