import Mathlib.Data.List.Nodup

/-!
# Trees of named directories

Nodes with lists of entries, each a name for a node. Two names are special: in a directory they
stand for the directory itself and for its parent. `NameTree.Ok` is what makes such a graph a
tree as far as the other, plain names go:

* entries of nodes in use name nodes in use, and the names in one directory differ;
* a node is named by at most one plain entry, the root by none;
* the name for itself names the directory, and the name for its parent a directory that has it
  as a plain entry; the root is its own parent.

Adding a node, linking it, taking a link back and removing a node are each described by what
they do to the lists, and keep the tree under the conditions a file system has to see to.
-/

/-- The nodes in use, and the entries of each. -/
structure NameTree (ι ν : Type*) where
  used : ι → Prop
  entries : ι → List (ι × ν)

namespace NameTree

variable {ι ν : Type*}

/-- The top of the tree, and the names of a directory for itself and for its parent. -/
structure Signs (ι ν : Type*) where
  root : ι
  self : ν
  parent : ν
  apart : self ≠ parent

/-- A name that is neither of the two special ones. -/
def Signs.Plain (S : Signs ι ν) (x : ν) : Prop := x ≠ S.self ∧ x ≠ S.parent

/-- From `n` the names lead to `m`. -/
def Leads (t : NameTree ι ν) : ι → List ν → ι → Prop
  | n, [], m => n = m
  | n, x :: xs, m => ∃ k, (k, x) ∈ t.entries n ∧ t.Leads k xs m

theorem Leads.append {t : NameTree ι ν} {n m k : ι} {xs ys : List ν} (h : t.Leads n xs m)
    (h' : t.Leads m ys k) : t.Leads n (xs ++ ys) k := by
  induction xs generalizing n with
  | nil => exact h ▸ h'
  | cons x xs ih =>
    obtain ⟨j, hj, hl⟩ := h
    exact ⟨j, hj, ih hl⟩

structure Ok (S : Signs ι ν) (t : NameTree ι ν) : Prop where
  root : t.used S.root
  used : ∀ {n e}, t.used n → e ∈ t.entries n → t.used e.1
  names : ∀ {n}, t.used n → ((t.entries n).map Prod.snd).Nodup
  /-- A node has one plain name, in one directory. -/
  owner : ∀ {n n' m x x'}, t.used n → t.used n' → S.Plain x → S.Plain x' →
    (m, x) ∈ t.entries n → (m, x') ∈ t.entries n' → n = n' ∧ x = x'
  top : ∀ {n x}, t.used n → (S.root, x) ∈ t.entries n → ¬ S.Plain x
  self : ∀ {n m}, t.used n → (m, S.self) ∈ t.entries n → m = n
  parent : ∀ {n m}, t.used n → (m, S.parent) ∈ t.entries n →
    n = S.root ∧ m = S.root ∨ ∃ x, S.Plain x ∧ (n, x) ∈ t.entries m

variable {S : Signs ι ν} {t t' : NameTree ι ν} {n m k : ι} {x : ν}

theorem Signs.not_plain (h : ¬ S.Plain x) : x = S.self ∨ x = S.parent := by
  by_cases hx : x = S.self
  · exact .inl hx
  · exact .inr (by_contra fun hp => h ⟨hx, hp⟩)

/-- In one directory a name stands for one node. -/
theorem Ok.unique (h : t.Ok S) (hn : t.used n) (hm : (m, x) ∈ t.entries n)
    (hk : (k, x) ∈ t.entries n) : m = k :=
  congrArg Prod.fst (List.inj_on_of_nodup_map (h.names hn) hm hk rfl)

/-- **A tree with the same entries.** -/
theorem Ok.congr (h : t.Ok S) (hu : ∀ {n}, t'.used n ↔ t.used n)
    (he : ∀ {n}, t.used n → t'.entries n = t.entries n) : t'.Ok S where
  root := hu.mpr h.root
  used := fun hn hm => by
    rw [he (hu.mp hn)] at hm
    exact hu.mpr (h.used (hu.mp hn) hm)
  names := fun hn => by
    rw [he (hu.mp hn)]
    exact h.names (hu.mp hn)
  owner := fun hn hn' hx hx' hm hm' => by
    rw [he (hu.mp hn)] at hm
    rw [he (hu.mp hn')] at hm'
    exact h.owner (hu.mp hn) (hu.mp hn') hx hx' hm hm'
  top := fun hn hm => by
    rw [he (hu.mp hn)] at hm
    exact h.top (hu.mp hn) hm
  self := fun hn hm => by
    rw [he (hu.mp hn)] at hm
    exact h.self (hu.mp hn) hm
  parent := fun {n m} hn hm => by
    rw [he (hu.mp hn)] at hm
    refine (h.parent (hu.mp hn) hm).imp_right fun ⟨x, hx, hnx⟩ => ⟨x, hx, ?_⟩
    rw [he (h.used (hu.mp hn) hm)]
    exact hnx

/-- **A new node** without entries. -/
theorem Ok.add (h : t.Ok S) (hk : ¬ t.used k) (hu : ∀ {n}, t'.used n ↔ t.used n ∨ n = k)
    (he : ∀ {n}, t.used n → t'.entries n = t.entries n) (hnew : t'.entries k = []) : t'.Ok S := by
  -- whatever has an entry was there before
  have hold : ∀ {n e}, t'.used n → e ∈ t'.entries n → t.used n ∧ e ∈ t.entries n := by
    intro n e hn hm
    rcases hu.mp hn with hn | rfl
    · exact ⟨hn, he hn ▸ hm⟩
    · rw [hnew] at hm
      cases hm
  refine ⟨hu.mpr (.inl h.root), fun hn hm => ?_, fun {n} hn => ?_, fun hn hn' hx hx' hm hm' => ?_,
    fun hn hm => ?_, fun hn hm => ?_, fun {n m} hn hm => ?_⟩
  · exact hu.mpr (.inl (h.used (hold hn hm).1 (hold hn hm).2))
  · rcases hu.mp hn with hn | rfl
    · rw [he hn]
      exact h.names hn
    · rw [hnew]
      exact List.nodup_nil
  · exact h.owner (hold hn hm).1 (hold hn' hm').1 hx hx' (hold hn hm).2 (hold hn' hm').2
  · exact h.top (hold hn hm).1 (hold hn hm).2
  · exact h.self (hold hn hm).1 (hold hn hm).2
  · obtain ⟨hn, hm⟩ := hold hn hm
    refine (h.parent hn hm).imp_right fun ⟨x, hx, hnx⟩ => ⟨x, hx, ?_⟩
    rw [he (h.used hn hm)]
    exact hnx

/-- What a link needs: a name that is free, and that is right for the node. -/
structure Fits (S : Signs ι ν) (t : NameTree ι ν) (n m : ι) (x : ν) : Prop where
  dir : t.used n
  node : t.used m
  free : x ∉ (t.entries n).map Prod.snd
  plain : S.Plain x → m ≠ S.root ∧ ∀ {k y}, t.used k → S.Plain y → (m, y) ∉ t.entries k
  self : x = S.self → m = n
  parent : x = S.parent → ∃ y, S.Plain y ∧ (n, y) ∈ t.entries m

/-- **A link** of `m` in the directory `n`. -/
theorem Ok.link (h : t.Ok S) (hf : t.Fits S n m x) (hu : ∀ {k}, t'.used k ↔ t.used k)
    (he : ∀ {k}, k ≠ n → t.used k → t'.entries k = t.entries k)
    (hn : (t'.entries n).Perm ((m, x) :: t.entries n)) : t'.Ok S := by
  have hmem : ∀ {k e}, t.used k → (e ∈ t'.entries k ↔ e ∈ t.entries k ∨ k = n ∧ e = (m, x)) := by
    intro k e hk
    by_cases hkn : k = n
    · subst hkn
      rw [hn.mem_iff, List.mem_cons]
      exact ⟨fun h => h.symm.imp_right fun he => ⟨rfl, he⟩, fun h => h.symm.imp_left And.right⟩
    · rw [he hkn hk]
      exact ⟨.inl, fun h => h.resolve_right fun hc => hkn hc.1⟩
  refine ⟨hu.mpr h.root, fun {k e} hk hm => hu.mpr ?_, fun {k} hk => ?_,
    fun {k k' a y y'} hk hk' hy hy' ha ha' => ?_, fun {k y} hk hm hy => ?_, fun {k a} hk hm => ?_,
    fun {k a} hk hm => ?_⟩
  · rcases (hmem (hu.mp hk)).mp hm with hm | ⟨_, rfl⟩
    · exact h.used (hu.mp hk) hm
    · exact hf.node
  · by_cases hkn : k = n
    · subst hkn
      rw [(hn.map Prod.snd).nodup_iff, List.map_cons, List.nodup_cons]
      exact ⟨hf.free, h.names (hu.mp hk)⟩
    · rw [he hkn (hu.mp hk)]
      exact h.names (hu.mp hk)
  · -- two plain names of one node: both old, or both the new one
    rcases (hmem (hu.mp hk)).mp ha with hold | ⟨hkn, hnew⟩ <;>
      rcases (hmem (hu.mp hk')).mp ha' with hold' | ⟨hkn', hnew'⟩
    · exact h.owner (hu.mp hk) (hu.mp hk') hy hy' hold hold'
    · cases hnew'
      exact absurd hold ((hf.plain hy').2 (hu.mp hk) hy)
    · cases hnew
      exact absurd hold' ((hf.plain hy).2 (hu.mp hk') hy')
    · cases hnew
      cases hnew'
      exact ⟨hkn.trans hkn'.symm, rfl⟩
  · rcases (hmem (hu.mp hk)).mp hm with hm | ⟨_, hm⟩
    · exact h.top (hu.mp hk) hm hy
    · cases hm
      exact (hf.plain hy).1 rfl
  · rcases (hmem (hu.mp hk)).mp hm with hm | ⟨rfl, hm⟩
    · exact h.self (hu.mp hk) hm
    · cases hm
      exact hf.self rfl
  · rcases (hmem (hu.mp hk)).mp hm with hm | ⟨rfl, hm⟩
    · refine (h.parent (hu.mp hk) hm).imp_right fun ⟨y, hy, hky⟩ => ⟨y, hy, ?_⟩
      exact (hmem (h.used (hu.mp hk) hm)).mpr (.inl hky)
    · cases hm
      obtain ⟨y, hy, hky⟩ := hf.parent rfl
      exact .inr ⟨y, hy, (hmem hf.node).mpr (.inl hky)⟩

/-- **A link is taken back.** A plain name goes only after the node has no name for its parent. -/
theorem Ok.unlink (h : t.Ok S) (hu : ∀ {k}, t'.used k ↔ t.used k) (hd : t.used n)
    (he : ∀ {k}, k ≠ n → t.used k → t'.entries k = t.entries k)
    (hn : (t.entries n).Perm ((m, x) :: t'.entries n))
    (hx : S.Plain x → ∀ {k}, (k, S.parent) ∉ t.entries m) : t'.Ok S := by
  have hsub : ∀ {k e}, t.used k → e ∈ t'.entries k → e ∈ t.entries k := by
    intro k e hk hm
    by_cases hkn : k = n
    · subst hkn
      exact hn.mem_iff.mpr (List.mem_cons_of_mem _ hm)
    · rwa [he hkn hk] at hm
  refine ⟨hu.mpr h.root, fun hk hm => hu.mpr (h.used (hu.mp hk) (hsub (hu.mp hk) hm)), fun {k} hk => ?_,
    fun hk hk' hy hy' hm hm' => h.owner (hu.mp hk) (hu.mp hk') hy hy' (hsub (hu.mp hk) hm)
      (hsub (hu.mp hk') hm'),
    fun hk hm => h.top (hu.mp hk) (hsub (hu.mp hk) hm),
    fun hk hm => h.self (hu.mp hk) (hsub (hu.mp hk) hm), fun {k a} hk hm => ?_⟩
  · by_cases hkn : k = n
    · subst hkn
      have hnames := h.names (hu.mp hk)
      rw [(hn.map Prod.snd).nodup_iff, List.map_cons, List.nodup_cons] at hnames
      exact hnames.2
    · rw [he hkn (hu.mp hk)]
      exact h.names (hu.mp hk)
  · have hold := hsub (hu.mp hk) hm
    refine (h.parent (hu.mp hk) hold).imp_right fun ⟨y, hy, hky⟩ => ⟨y, hy, ?_⟩
    by_cases han : a = n
    · subst han
      -- the link that goes is not the one that `k` hangs on
      refine (List.mem_cons.mp (hn.mem_iff.mp hky)).resolve_left fun heq => ?_
      cases heq
      exact hx hy hold
    · rw [he han (h.used (hu.mp hk) hold)]
      exact hky

/-- **A node is removed** that no other node has an entry for. -/
theorem Ok.remove (h : t.Ok S) (hk : k ≠ S.root) (hu : ∀ {n}, t'.used n ↔ t.used n ∧ n ≠ k)
    (he : ∀ {n}, n ≠ k → t.used n → t'.entries n = t.entries n)
    (hfree : ∀ {n e}, n ≠ k → t.used n → e ∈ t.entries n → e.1 ≠ k) : t'.Ok S := by
  have hold : ∀ {n e}, t'.used n → e ∈ t'.entries n → t.used n ∧ e ∈ t.entries n := by
    intro n e hn hm
    obtain ⟨hn, hne⟩ := hu.mp hn
    exact ⟨hn, he hne hn ▸ hm⟩
  refine ⟨hu.mpr ⟨h.root, hk.symm⟩, fun hn hm => hu.mpr ?_, fun hn => ?_, fun hn hn' hx hx' hm hm' => ?_,
    fun hn hm => h.top (hold hn hm).1 (hold hn hm).2,
    fun hn hm => h.self (hold hn hm).1 (hold hn hm).2, fun {n m} hn hm => ?_⟩
  · obtain ⟨hn', hm'⟩ := hold hn hm
    exact ⟨h.used hn' hm', hfree (hu.mp hn).2 hn' hm'⟩
  · rw [he (hu.mp hn).2 (hu.mp hn).1]
    exact h.names (hu.mp hn).1
  · exact h.owner (hold hn hm).1 (hold hn' hm').1 hx hx' (hold hn hm).2 (hold hn' hm').2
  · obtain ⟨hn', hm'⟩ := hold hn hm
    refine (h.parent hn' hm').imp_right fun ⟨x, hx, hnx⟩ => ⟨x, hx, ?_⟩
    rw [he (hfree (hu.mp hn).2 hn' hm') (h.used hn' hm')]
    exact hnx

end NameTree
