import Cyanurus.Fs.Link

/-!
# Changes that keep the cache coherent

When the record of a directory is appended or cleared, the children of one dentry follow. Another
dentry of the same directory would be left behind, if it had been loaded. None has been as long as
only the root and dentries with plain names are loaded: by their plain names the directories are a
tree, so two such dentries of one directory are the same. `Fs.Tidy` is the coherent cache with
this.
-/

namespace Cyanurus

namespace Fs

variable {s s' : Fs} {d c n m p : Nat} {D C : Dentry} {name : CString}

/-- The cache is coherent, and only the root and dentries with plain names have been loaded. -/
structure Tidy (s : Fs) : Prop extends Coherent s where
  plain : s.LoadedPlain

/-- A dentry below the root stands for an entry on disk. -/
theorem Coherent.entry (hc : s.Coherent) (hd : s.dentries.get d = some D) (hne : d ≠ s.root) :
    ∃ P n m, s.dentries.get D.parent = some P ∧ P.loaded = true ∧ d ∈ P.children
      ∧ s.vol.indexOf P.inode = some n ∧ s.vol.indexOf D.inode = some m
      ∧ (m, D.name) ∈ s.vol.entries n := by
  obtain ⟨P, hP, hl, hmem⟩ := hc.parent_loaded hd hne
  obtain ⟨n, hn⟩ := hc.object hP
  obtain ⟨D', m, hD', hm, hentry⟩ := hc.child hP hl hn hmem
  rw [hd] at hD'
  cases hD'
  exact ⟨P, n, m, hP, hl, hmem, hn, hm, hentry⟩

/-- Two children of a loaded dentry with one name are the same. -/
theorem Coherent.child_unique (hc : s.Coherent) (hd : s.dentries.get d = some D) (hl : D.loaded = true)
    {c c' : Nat} {C C' : Dentry} (hmem : c ∈ D.children) (hmem' : c' ∈ D.children)
    (hC : s.dentries.get c = some C) (hC' : s.dentries.get c' = some C') (hname : C.name = C'.name) :
    c = c' := by
  obtain ⟨n, hn⟩ := hc.object hd
  obtain ⟨m, hm⟩ := hc.object hC
  obtain ⟨m', hm'⟩ := hc.object hC'
  have hnodup : (D.children.map fun c => (s.key c).2).Nodup := by
    have := ((hc.loaded hd hl hn).map Prod.snd).nodup_iff.mpr (hc.tree.names (hc.ready.allocated hn))
    rwa [List.map_map] at this
  refine List.inj_on_of_nodup_map hnodup hmem hmem' ?_
  rw [key_of_get hC hm, key_of_get hC' hm']
  exact hname

/-- **By plain names a directory has one dentry.** -/
theorem Tidy.unique (hc : s.Tidy) {d d' : Nat} {D D' : Dentry} (hd : s.dentries.get d = some D)
    (hd' : s.dentries.get d' = some D') (hplain : d = s.root ∨ signs.Plain D.name)
    (hplain' : d' = s.root ∨ signs.Plain D'.name) (hn : s.vol.indexOf D.inode = some n)
    (hn' : s.vol.indexOf D'.inode = some n) : d = d' := by
  -- no dentry with a plain name stands for the root directory
  have htop : ∀ {d D}, s.dentries.get d = some D → signs.Plain D.name → d ≠ s.root →
      s.vol.indexOf D.inode ≠ some 1 := by
    intro d D hd hp hne h1
    obtain ⟨P, k, m, _, _, _, hk, hm, hentry⟩ := hc.entry hd hne
    rw [h1] at hm
    cases hm
    exact hc.tree.top (hc.ready.allocated hk) hentry hp
  induction d using Nat.strong_induction_on generalizing d' D D' n with
  | _ d ih =>
    by_cases hr : d = s.root <;> by_cases hr' : d' = s.root
    · exact hr.trans hr'.symm
    · have h1 : n = 1 := Option.some.inj (hn.symm.trans (hc.root (hr ▸ hd)))
      exact absurd (h1 ▸ hn') (htop hd' (hplain'.resolve_left hr') hr')
    · have h1 : n = 1 := Option.some.inj (hn'.symm.trans (hc.root (hr' ▸ hd')))
      exact absurd (h1 ▸ hn) (htop hd (hplain.resolve_left hr) hr)
    · -- both hang on the one plain name of `n`, and so do their parents
      obtain ⟨P, k, m, hP, hl, hmem, hk, hm, hentry⟩ := hc.entry hd hr
      obtain ⟨P', k', m', hP', hl', hmem', hk', hm', hentry'⟩ := hc.entry hd' hr'
      rw [hn] at hm
      rw [hn'] at hm'
      cases hm
      cases hm'
      obtain ⟨rfl, hname⟩ := hc.tree.owner (hc.ready.allocated hk) (hc.ready.allocated hk')
        (hplain.resolve_left hr) (hplain'.resolve_left hr') hentry hentry'
      have hpar : D.parent = D'.parent :=
        ih _ (hc.links.up hd hr).1 hP hP' (hc.plain hP hl) (hc.plain hP' hl') hk hk'
      rw [← hpar, hP] at hP'
      cases hP'
      exact hc.child_unique hP hl hmem hmem' hd hd' hname

end Fs

/-! ## An entry is added -/

section Attach

variable {st : Store Dentry} {root d p : Nat} {D : Dentry} {name : CString}

theorem Linked.attached (h : Linked st root) (hd : st.get d = some D) (hl : D.loaded = true)
    (hcount : D.children.length + 1 < 2 ^ 32) :
    Linked (attach st d ⟨name, false, 0, p, d, []⟩) root := by
  obtain ⟨R, hR, hloop⟩ := h.top
  have hlt := Store.lt_next hd
  have hself := attach_self (C := ⟨name, false, 0, p, d, []⟩) hd
  have hold : ∀ {q E}, st.get q = some E → ∃ E', (attach st d ⟨name, false, 0, p, d, []⟩).get q = some E'
      ∧ E'.parent = E.parent ∧ ∀ c ∈ E.children, c ∈ E'.children := by
    intro q E hq
    by_cases hqd : q = d
    · subst hqd
      rw [hd] at hq
      cases hq
      exact ⟨_, hself, rfl, fun c hc => List.mem_cons_of_mem _ hc⟩
    · exact ⟨E, attach_old hqd hq, rfl, fun _ hc => hc⟩
  refine ⟨?_, fun {q E} hq hne => ?_, fun {q E c} hq hc => ?_, fun {q E} hq => ?_, fun {q E} hq => ?_,
    fun {q E} hq hle => ?_⟩
  · obtain ⟨R', hR', hpar, _⟩ := hold hR
    exact ⟨R', hR', hpar.trans hloop⟩
  · rcases attach_cases hd hq with ⟨rfl, rfl⟩ | ⟨rfl, _, rfl⟩ | ⟨hqd, hE⟩
    · obtain ⟨hlt, P, hP, hmem⟩ := h.up hd hne
      obtain ⟨P', hP', _, hsub⟩ := hold hP
      exact ⟨hlt, P', hP', hsub _ hmem⟩
    · exact ⟨hlt, _, hself, List.mem_cons_self ..⟩
    · obtain ⟨hlt, P, hP, hmem⟩ := h.up hE hne
      obtain ⟨P', hP', _, hsub⟩ := hold hP
      exact ⟨hlt, P', hP', hsub _ hmem⟩
  · rcases attach_cases hd hq with ⟨rfl, rfl⟩ | ⟨rfl, _, rfl⟩ | ⟨hqd, hE⟩
    · rcases List.mem_cons.mp hc with rfl | hc
      · exact ⟨(Nat.ne_of_lt (Store.lt_next hR)).symm, _, attach_new hd, rfl⟩
      · obtain ⟨hne, C, hC, hpar⟩ := h.down hd hc
        obtain ⟨C', hC', hpar', _⟩ := hold hC
        exact ⟨hne, C', hC', hpar'.trans hpar⟩
    · cases hc
    · obtain ⟨hne, C, hC, hpar⟩ := h.down hE hc
      obtain ⟨C', hC', hpar', _⟩ := hold hC
      exact ⟨hne, C', hC', hpar'.trans hpar⟩
  · rcases attach_cases hd hq with ⟨_, rfl⟩ | ⟨_, _, rfl⟩ | ⟨_, hE⟩
    · refine List.nodup_cons.mpr ⟨fun hmem => ?_, h.nodup hd⟩
      obtain ⟨_, C, hC, _⟩ := h.down hd hmem
      exact Nat.lt_irrefl _ (Store.lt_next hC)
    · exact List.nodup_nil
    · exact h.nodup hE
  · rcases attach_cases hd hq with ⟨_, rfl⟩ | ⟨_, _, rfl⟩ | ⟨_, hE⟩
    · show (D.nentries + 1) % 2 ^ 32 = D.children.length + 1
      rw [h.count hd, Nat.mod_eq_of_lt hcount]
    · rfl
    · exact h.count hE
  · rcases attach_cases hd hq with ⟨_, rfl⟩ | ⟨_, _, rfl⟩ | ⟨_, hE⟩
    · rw [hl] at hle
      cases hle
    · rfl
    · exact h.unloaded hE hle

end Attach

namespace Fs

variable {s : Fs} {w : Volume} {d n m p : Nat} {D : Dentry} {name : CString}

/-- `d` is the only dentry of directory `n` that has been loaded. -/
def Only (s : Fs) (d n : Nat) : Prop :=
  ∀ {q E}, s.dentries.get q = some E → E.loaded = true → s.vol.indexOf E.inode = some n → q = d

theorem Tidy.only (hc : s.Tidy) (hd : s.dentries.get d = some D) (hl : D.loaded = true)
    (hn : s.vol.indexOf D.inode = some n) : s.Only d n := fun hq hle hm =>
  hc.unique hq hd (hc.plain hq hle) (hc.plain hd hl) hm hn

/-- The children of a loaded dentry are as many as the entries of its directory. -/
theorem Coherent.children_small (hc : s.Coherent) (hd : s.dentries.get d = some D)
    (hl : D.loaded = true) : D.children.length + 1 < 2 ^ 32 := by
  obtain ⟨n, hn⟩ := hc.object hd
  have hlen := (hc.loaded hd hl hn).length_eq
  rw [List.length_map] at hlen
  unfold Volume.entries at hlen
  split at hlen
  · rename_i hdir
    have hle := List.length_filter_le (fun e : Nat × CString => decide (e.1 ≠ 0)) (s.vol.slots n)
    have hmax : maxSize = 268431360 := rfl
    have := (hc.ready.dirs (hc.ready.allocated hn) hdir).small
    rw [slots_length] at hle
    unfold direntSize at hle
    omega
  · rw [hlen]
    decide

/-- **An entry is linked**, on disk and in the cache. -/
theorem Coherent.link (hc : s.Coherent) (hd : s.dentries.get d = some D) (hl : D.loaded = true)
    (hn : s.vol.indexOf D.inode = some n) (honly : s.Only d n) (hp : s.vol.indexOf p = some m)
    (ha : s.vol.Adds w n m name) (hent : w.entries n = s.vol.entries n ++ [(m, name)])
    (hfit : s.vol.tree.Fits signs n m name) :
    Coherent ⟨w, attach s.dentries d ⟨name, false, 0, p, d, []⟩, s.root⟩ := by
  have hself := attach_self (C := ⟨name, false, 0, p, d, []⟩) hd
  have hkey : ∀ {c C}, s.dentries.get c = some C →
      Fs.key ⟨w, attach s.dentries d ⟨name, false, 0, p, d, []⟩, s.root⟩ c = s.key c := by
    intro c C hC
    obtain ⟨k, hk⟩ := hc.object hC
    rw [key_of_get hC hk]
    by_cases hcd : c = d
    · subst hcd
      rw [hd] at hC
      cases hC
      have hk' : w.indexOf D.inode = some k := (ha.index _).trans hk
      have := key_of_get (s := ⟨w, attach s.dentries c ⟨name, false, 0, p, c, []⟩, s.root⟩) hself hk'
      exact this
    · exact key_of_get (attach_old hcd hC) ((ha.index _).trans hk)
  have hkeys : ∀ {q E}, s.dentries.get q = some E → E.children.map
      (Fs.key ⟨w, attach s.dentries d ⟨name, false, 0, p, d, []⟩, s.root⟩) = E.children.map s.key :=
    fun hq => List.map_congr_left fun c hmem =>
      let ⟨_, hC⟩ := hc.child_alive hq hmem
      hkey hC
  refine ⟨ha.ready, ?_, hc.links.attached hd hl (hc.children_small hd hl), fun {R} hR => ?_,
    (ha.isDirectory hc.tree.root).trans hc.rootDir, fun {q E} hq => ?_, fun {q E k} hq hle hk => ?_⟩
  · refine hc.tree.link hfit ha.alloc ha.entries_of_ne ?_
    show (w.entries n).Perm _
    rw [hent]
    exact List.perm_append_singleton _ _
  · rw [ha.index]
    obtain ⟨R₀, hR₀, _⟩ := hc.links.top
    rcases attach_cases hd hR with ⟨hrd, rfl⟩ | ⟨hnew, _, _⟩ | ⟨_, hE⟩
    · have h1 := hc.root (hrd ▸ hd)
      exact h1
    · exact absurd (Store.lt_next hR₀) (by rw [hnew]; exact Nat.lt_irrefl _)
    · exact hc.root hE
  · rw [ha.index]
    rcases attach_cases hd hq with ⟨_, rfl⟩ | ⟨_, _, rfl⟩ | ⟨_, hE⟩
    · exact ⟨n, hn⟩
    · exact ⟨m, hp⟩
    · exact hc.object hE
  · rw [ha.index] at hk
    rcases attach_cases hd hq with ⟨_, rfl⟩ | ⟨_, _, rfl⟩ | ⟨hqd, hE⟩
    · -- the new child stands for the new record
      rw [show k = n from Option.some.inj (hk.symm.trans hn)]
      rw [hent, List.map_cons, hkeys hd, key_of_get (attach_new hd) ((ha.index p).trans hp)]
      exact ((hc.loaded hd hl hn).cons _).trans (List.perm_append_singleton _ _).symm
    · cases hle
    · rw [hkeys hE]
      have hne : k ≠ n := by
        rintro rfl
        exact hqd (honly hE hle hk)
      rw [ha.entries_of_ne hne (hc.ready.allocated hk)]
      exact hc.loaded hE hle hk

theorem LoadedPlain.attached (hs : s.LoadedPlain) (hd : s.dentries.get d = some D) (hl : D.loaded = true) :
    LoadedPlain ⟨w, attach s.dentries d ⟨name, false, 0, p, d, []⟩, s.root⟩ := by
  intro q E hq hle
  rcases attach_cases hd hq with ⟨rfl, rfl⟩ | ⟨_, _, rfl⟩ | ⟨_, hE⟩
  · have hplain := hs hd hl
    exact hplain
  · cases hle
  · exact hs hE hle

end Fs

/-! ## An entry is removed -/

section Detach

variable {st : Store Dentry} {root c : Nat} {C P : Dentry}

theorem Linked.detached (h : Linked st root) (hC : st.get c = some C) (hroot : c ≠ root)
    (hP : st.get C.parent = some P) (hnil : C.children = []) (hcount : P.children.length < 2 ^ 32) :
    Linked (detach st c C.parent) root := by
  obtain ⟨R, hR, hloop⟩ := h.top
  obtain ⟨hlt, P', hP', hmem⟩ := h.up hC hroot
  rw [hP] at hP'
  cases hP'
  have hne : C.parent ≠ c := Nat.ne_of_lt hlt
  have hself := detach_parent hP hne
  -- what is kept has its parent, and its children but `c`
  have hold : ∀ {q E}, q ≠ c → st.get q = some E → ∃ E', (detach st c C.parent).get q = some E'
      ∧ E'.parent = E.parent ∧ ∀ e ∈ E.children, e ≠ c → e ∈ E'.children := by
    intro q E hqc hq
    by_cases hqp : q = C.parent
    · subst hqp
      rw [hP] at hq
      cases hq
      exact ⟨_, hself, rfl, fun e he hec => (List.mem_erase_of_ne hec).mpr he⟩
    · exact ⟨E, (detach_ne hqc hqp).trans hq, rfl, fun _ he _ => he⟩
  have hup : ∀ {q E}, q ≠ c → st.get q = some E → q ≠ root →
      E.parent < q ∧ ∃ P', (detach st c C.parent).get E.parent = some P' ∧ q ∈ P'.children := by
    intro q E hqc hq hqr
    obtain ⟨hlt, Q, hQ, hq'⟩ := h.up hq hqr
    have hpar : E.parent ≠ c := by
      intro heq
      rw [heq, hC] at hQ
      cases hQ
      rw [hnil] at hq'
      cases hq'
    obtain ⟨Q', hQ', _, hsub⟩ := hold hpar hQ
    exact ⟨hlt, Q', hQ', hsub q hq' hqc⟩
  have hdown : ∀ {q E e}, st.get q = some E → e ∈ E.children → e ≠ c →
      e ≠ root ∧ ∃ C', (detach st c C.parent).get e = some C' ∧ C'.parent = q := by
    intro q E e hq he hec
    obtain ⟨her, F, hF, hpar⟩ := h.down hq he
    obtain ⟨F', hF', hpar', _⟩ := hold hec hF
    exact ⟨her, F', hF', hpar'.trans hpar⟩
  refine ⟨?_, fun {q E} hq hqr => ?_, fun {q E e} hq he => ?_, fun {q E} hq => ?_, fun {q E} hq => ?_,
    fun {q E} hq hle => ?_⟩
  · obtain ⟨R', hR', hpar, _⟩ := hold hroot.symm hR
    exact ⟨R', hR', hpar.trans hloop⟩
  · rcases detach_cases hP hne hq with ⟨rfl, rfl⟩ | ⟨_, hqc, hE⟩
    · have := hup hne hP hqr
      exact this
    · exact hup hqc hE hqr
  · rcases detach_cases hP hne hq with ⟨rfl, rfl⟩ | ⟨hqp, hqc, hE⟩
    · obtain ⟨hec, he⟩ := (h.nodup hP).mem_erase_iff.mp he
      exact hdown hP he hec
    · refine hdown hE he ?_
      rintro rfl
      -- `c` is a child of its parent only
      obtain ⟨_, F, hF, hpar⟩ := h.down hE he
      rw [hC] at hF
      cases hF
      exact hqp hpar.symm
  · rcases detach_cases hP hne hq with ⟨_, rfl⟩ | ⟨_, _, hE⟩
    · exact (h.nodup hP).erase c
    · exact h.nodup hE
  · rcases detach_cases hP hne hq with ⟨_, rfl⟩ | ⟨_, _, hE⟩
    · have hpos := List.length_pos_of_mem hmem
      show (P.nentries + 2 ^ 32 - 1) % 2 ^ 32 = (P.children.erase c).length
      rw [h.count hP, List.length_erase_of_mem hmem]
      omega
    · exact h.count hE
  · rcases detach_cases hP hne hq with ⟨_, rfl⟩ | ⟨_, _, hE⟩
    · rw [h.unloaded hP hle] at hmem
      cases hmem
    · exact h.unloaded hE hle

end Detach

namespace Fs

variable {s : Fs} {w : Volume} {c n m i : Nat} {C P : Dentry}

/-- **An entry is unlinked**, on disk and in the cache. -/
theorem Coherent.unlink (hc : s.Coherent) (hC : s.dentries.get c = some C) (hroot : c ≠ s.root)
    (hP : s.dentries.get C.parent = some P) (hl : P.loaded = true) (hn : s.vol.indexOf P.inode = some n)
    (honly : s.Only C.parent n) (hm : s.vol.indexOf C.inode = some m) (hnil : C.children = [])
    (hw : s.vol.Clears w n i) (hslot : s.vol.slot n i = (m, C.name))
    (hx : signs.Plain C.name → ∀ {k}, (k, dotdot) ∉ s.vol.entries m) :
    Coherent ⟨w, detach s.dentries c C.parent, s.root⟩ := by
  obtain ⟨hlt, P', hP', hmem⟩ := hc.links.up hC hroot
  rw [hP] at hP'
  cases hP'
  have hne : C.parent ≠ c := Nat.ne_of_lt hlt
  have hself := detach_parent hP hne
  have hna := hc.ready.allocated hn
  have hdir : s.vol.isDirectory n = true := by
    obtain ⟨_, _, _, _, hentry⟩ := hc.child hP hl hn hmem
    exact (mem_entries.mp hentry).1
  have hperm := hw.entries hna hdir
  rw [hslot] at hperm
  have hkey : ∀ {q E}, q ≠ c → s.dentries.get q = some E →
      Fs.key ⟨w, detach s.dentries c C.parent, s.root⟩ q = s.key q := by
    intro q E hqc hq
    obtain ⟨k, hk⟩ := hc.object hq
    rw [key_of_get hq hk]
    by_cases hqp : q = C.parent
    · subst hqp
      rw [hP] at hq
      cases hq
      have hk' : w.indexOf P.inode = some k := (hw.index _).trans hk
      have := key_of_get (s := ⟨w, detach s.dentries c C.parent, s.root⟩) hself hk'
      exact this
    · exact key_of_get ((detach_ne hqc hqp).trans hq) ((hw.index _).trans hk)
  refine ⟨hw.ready, ?_, hc.links.detached hC hroot hP hnil (Nat.lt_of_succ_lt (hc.children_small hP hl)),
    fun {R} hR => ?_, (hw.isDirectory hc.tree.root).trans hc.rootDir, fun {q E} hq => ?_,
    fun {q E k} hq hle hk => ?_⟩
  · exact hc.tree.unlink hw.alloc hna hw.entries_of_ne hperm hx
  · rw [hw.index]
    rcases detach_cases hP hne hR with ⟨hrp, rfl⟩ | ⟨_, _, hE⟩
    · have h1 := hc.root (hrp ▸ hP)
      exact h1
    · exact hc.root hE
  · rw [hw.index]
    rcases detach_cases hP hne hq with ⟨_, rfl⟩ | ⟨_, _, hE⟩
    · exact ⟨n, hn⟩
    · exact hc.object hE
  · rw [hw.index] at hk
    rcases detach_cases hP hne hq with ⟨_, rfl⟩ | ⟨hqp, hqc, hE⟩
    · -- the children without `c`, the entries without its entry
      rw [show k = n from Option.some.inj (hk.symm.trans hn)]
      have hkeys : (P.children.erase c).map (Fs.key ⟨w, detach s.dentries c C.parent, s.root⟩)
          = (P.children.erase c).map s.key := by
        refine List.map_congr_left fun e he => ?_
        obtain ⟨hec, he⟩ := (hc.links.nodup hP).mem_erase_iff.mp he
        obtain ⟨F, hF⟩ := hc.child_alive hP he
        exact hkey hec hF
      rw [hkeys]
      have hcons := ((List.perm_cons_erase hmem).map s.key).symm.trans (hc.loaded hP hl hn)
      rw [List.map_cons, key_of_get hC hm] at hcons
      exact (hcons.trans hperm).cons_inv
    · have hkn : k ≠ n := by
        rintro rfl
        exact hqp (honly hE hle hk)
      have hkeys : E.children.map (Fs.key ⟨w, detach s.dentries c C.parent, s.root⟩)
          = E.children.map s.key := by
        refine List.map_congr_left fun e he => ?_
        obtain ⟨_, F, hF, hpar⟩ := hc.links.down hE he
        refine hkey ?_ hF
        rintro rfl
        rw [hC] at hF
        cases hF
        exact hqp hpar.symm
      rw [hkeys]
      rw [hw.entries_of_ne hkn (hc.ready.allocated hk)]
      exact hc.loaded hE hle hk

theorem LoadedPlain.detached (hs : s.LoadedPlain) (hP : s.dentries.get C.parent = some P)
    (hne : C.parent ≠ c) : LoadedPlain ⟨w, detach s.dentries c C.parent, s.root⟩ := by
  intro q E hq hle
  rcases detach_cases hP hne hq with ⟨rfl, rfl⟩ | ⟨_, _, hE⟩
  · have hplain := hs hP hle
    exact hplain
  · exact hs hE hle

end Fs

/-! ## An inode is made or destroyed -/

namespace Fs

variable {s : Fs} {w : Volume} {d n m p mode : Nat} {D : Dentry}

/-- The volume is changed where no dentry looks. -/
theorem Coherent.revolume (hc : s.Coherent) (hw : w.Ready) (ht : w.tree.Ok signs)
    (hdir : w.isDirectory 1 = s.vol.isDirectory 1)
    (hidx : ∀ {d D}, s.dentries.get d = some D → w.indexOf D.inode = s.vol.indexOf D.inode)
    (hent : ∀ {d D n}, s.dentries.get d = some D → s.vol.indexOf D.inode = some n →
      w.entries n = s.vol.entries n) : Coherent { s with vol := w } := by
  have hkey : ∀ {d D}, s.dentries.get d = some D → Fs.key { s with vol := w } d = s.key d := by
    intro d D hd
    obtain ⟨n, hn⟩ := hc.object hd
    rw [key_of_get hd hn]
    exact key_of_get (s := { s with vol := w }) hd ((hidx hd).trans hn)
  refine ⟨hw, ht, hc.links, fun {R} hR => ?_, hdir.trans hc.rootDir, fun {d D} hd => ?_,
    fun {d D n} hd hl hn => ?_⟩
  · exact (hidx hR).trans (hc.root hR)
  · obtain ⟨n, hn⟩ := hc.object hd
    exact ⟨n, (hidx hd).trans hn⟩
  · have hn : s.vol.indexOf D.inode = some n := (hidx hd).symm.trans hn
    have hkeys : D.children.map (Fs.key { s with vol := w }) = D.children.map s.key :=
      List.map_congr_left fun c hmem =>
        let ⟨_, hC⟩ := hc.child_alive hd hmem
        hkey hC
    rw [hkeys]
    rw [hent hd hn]
    exact hc.loaded hd hl hn

/-- A new inode has no dentry. -/
theorem Coherent.inode_ne (hc : s.Coherent) (hold : s.vol.indexOf p = none)
    (hd : s.dentries.get d = some D) : D.inode ≠ p := by
  rintro rfl
  obtain ⟨n, hn⟩ := hc.object hd
  rw [hold] at hn
  cases hn

/-- **`inode_create` keeps the cache coherent.** -/
theorem Coherent.create (hc : s.Coherent) (h : s.vol.Creates w p m mode) :
    Coherent { s with vol := w } := by
  have hsame := h.others.sameFile (fun heq => h.fresh (heq ▸ hc.tree.root)) hc.tree.root
  refine hc.revolume h.ready ?_ hsame.isDirectory (fun hd => h.index (hc.inode_ne h.old hd)) fun _ hn =>
    h.entries (hc.ready.allocated hn)
  exact hc.tree.add h.fresh h.alloc h.entries h.entries_new

/-- `inode_create` that gives up keeps it, too. -/
theorem Coherent.create_none (hc : s.Coherent) (h : s.vol.Changes w 0) :
    Coherent { s with vol := w } := by
  have hne : ∀ {k}, Allocated s.vol.sb s.vol.disk k → k ≠ 0 := fun hk =>
    Nat.ne_of_gt (Nat.lt_of_lt_of_le Nat.zero_lt_one hk.1.1)
  refine hc.revolume h.ready ?_ (h.isDirectory hc.tree.root) (fun _ => h.index _) fun _ hn =>
    h.entries_of_ne (hne (hc.ready.allocated hn)) (hc.ready.allocated hn)
  exact hc.tree.congr h.alloc fun hk => h.entries_of_ne (hne hk) hk

/-- No entry names inode `m`, but those of `m` itself. -/
def Unnamed (v : Volume) (m : Nat) : Prop :=
  ∀ {k e}, k ≠ m → Allocated v.sb v.disk k → e ∈ v.entries k → e.1 ≠ m

/-- An inode without a name and without entries has no dentry. -/
theorem Coherent.no_dentry (hc : s.Coherent) (h1 : m ≠ 1) (hfree : Unnamed s.vol m)
    (hnil : s.vol.entries m = []) (hd : s.dentries.get d = some D) : s.vol.indexOf D.inode ≠ some m := by
  intro hm
  by_cases hr : d = s.root
  · exact h1 (Option.some.inj (hm.symm.trans (hc.root (hr ▸ hd))))
  · obtain ⟨P, n, k, _, _, _, hn, hk, hentry⟩ := hc.entry hd hr
    rw [hm] at hk
    cases hk
    by_cases hnm : n = m
    · rw [hnm, hnil] at hentry
      cases hentry
    · exact hfree hnm (hc.ready.allocated hn) hentry rfl

/-- **`inode_destroy` of an inode that no entry names keeps the cache coherent.** -/
theorem Coherent.destroy (hc : s.Coherent) (hp : s.vol.indexOf p = some m) (h : s.vol.Destroys w p m)
    (h1 : m ≠ 1) (hfree : Unnamed s.vol m) (hnil : s.vol.entries m = []) :
    Coherent { s with vol := w } := by
  have hno := fun {d D} => hc.no_dentry (d := d) (D := D) h1 hfree hnil
  refine hc.revolume h.ready (hc.tree.remove h1 h.alloc h.entries hfree)
    (h.isDirectory (Ne.symm h1) hc.tree.root) (fun {d D} hd => h.index ?_)
    fun {d D n} hd hn => h.entries ?_ (hc.ready.allocated hn)
  · intro heq
    exact hno hd (heq ▸ hp)
  · rintro rfl
    exact hno hd hn

end Fs

end Cyanurus
