import Cyanurus.Fs.Cache

/-!
# Paths

A path is taken apart twice. `lookup_dentry` walks over the names between its slashes, and
`fs_create` and `fs_mkdir` cut it into `dirname` and `basename`, which skip slashes at the end
and between the two. Both see the same names: those of the directory, and then the last one.
-/

namespace Cyanurus

variable {a b x path : CString}

/-- The names of a path, between its slashes. -/
def pathNames (path : CString) : List CString := Fs.nonempty (splitSlash path)

/-- Does the path start at the root? -/
def Absolute (path : CString) : Prop := path.head? = some slash

instance : Decidable (Absolute path) := inferInstanceAs (Decidable (_ = _))

/-! ## Names -/

theorem splitSlash_ne_nil (a : CString) : splitSlash a ≠ [] := by
  cases a with
  | nil => simp [splitSlash]
  | cons c a =>
    rw [splitSlash]
    split
    · simp
    · split <;> simp

theorem splitSlash_append (a b : CString) :
    splitSlash (a ++ slash :: b) = splitSlash a ++ splitSlash b := by
  induction a with
  | nil => rfl
  | cons c a ih =>
    rw [List.cons_append, splitSlash, splitSlash, ih]
    split
    · rfl
    · cases h : splitSlash a with
      | nil => exact absurd h (splitSlash_ne_nil a)
      | cons name names => rfl

theorem splitSlash_single (h : slash ∉ x) : splitSlash x = [x] := by
  induction x with
  | nil => rfl
  | cons c x ih =>
    rw [List.mem_cons, not_or] at h
    rw [splitSlash, if_neg (Ne.symm h.1), ih h.2]

theorem pathNames_append (a b : CString) :
    pathNames (a ++ slash :: b) = pathNames a ++ pathNames b := by
  unfold pathNames Fs.nonempty
  rw [splitSlash_append, List.filter_append]

theorem pathNames_single (h : slash ∉ x) (h0 : x ≠ []) : pathNames x = [x] := by
  unfold pathNames
  rw [splitSlash_single h, Fs.nonempty_cons h0]
  rfl

/-- Slashes at the end do not count. -/
theorem pathNames_append_slashes (h : ∀ c ∈ b, c = slash) : pathNames (a ++ b) = pathNames a := by
  induction b generalizing a with
  | nil => rw [List.append_nil]
  | cons c b ih =>
    have hc : c = slash := h c (List.mem_cons_self ..)
    have hb := ih (a := []) fun c hc => h c (List.mem_cons_of_mem _ hc)
    rw [hc, pathNames_append, ← List.nil_append b, hb]
    exact List.append_nil _

/-- A name behind slashes is the last one. -/
theorem pathNames_snoc (hb : ∀ c ∈ b, c = slash) (hb0 : b ≠ []) (hx : slash ∉ x) (h0 : x ≠ []) :
    pathNames (a ++ b ++ x) = pathNames a ++ [x] := by
  obtain ⟨b, c, rfl⟩ := (List.eq_nil_or_concat' b).resolve_left hb0
  have hc : c = slash := hb c (by simp)
  rw [← List.append_assoc, List.append_assoc (a ++ b), List.singleton_append, hc, pathNames_append,
    pathNames_append_slashes fun c h => hb c (List.mem_append_left _ h), pathNames_single hx h0]

theorem mem_splitSlash (h : x ∈ splitSlash path) : slash ∉ x ∧ ∀ c ∈ x, c ∈ path := by
  induction path generalizing x with
  | nil =>
    rw [splitSlash, List.mem_singleton] at h
    simp [h]
  | cons c path ih =>
    rw [splitSlash] at h
    have hmem : ∀ {y}, y ∈ splitSlash path → slash ∉ y ∧ ∀ e ∈ y, e ∈ c :: path := fun hy =>
      ⟨(ih hy).1, fun e he => List.mem_cons_of_mem _ ((ih hy).2 e he)⟩
    split at h
    · rcases List.mem_cons.mp h with rfl | h
      · simp
      · exact hmem h
    · rename_i hc
      split at h
      · rename_i hnil
        exact absurd hnil (splitSlash_ne_nil path)
      · rename_i name names hsplit
        rw [hsplit] at hmem
        rcases List.mem_cons.mp h with rfl | h
        · obtain ⟨hno, hin⟩ := hmem (List.mem_cons_self ..)
          refine ⟨fun h => ?_, fun e he => ?_⟩
          · exact (List.mem_cons.mp h).elim (fun h => hc h.symm) hno
          · rcases List.mem_cons.mp he with rfl | he
            · exact List.mem_cons_self ..
            · exact hin e he
        · exact hmem (List.mem_cons_of_mem _ h)

/-- The bytes of a name are bytes of the path. -/
theorem mem_pathNames (h : x ∈ pathNames path) : x ≠ [] ∧ slash ∉ x ∧ ∀ c ∈ x, c ∈ path := by
  obtain ⟨hmem, hne⟩ := List.mem_filter.mp h
  exact ⟨of_decide_eq_true hne, mem_splitSlash hmem⟩

/-! ## The directory and the last name -/

/-- A path, what `dirname` makes of it, and what `basename` does. -/
inductive PathParts : CString → CString → CString → Prop
  /-- There are only slashes. -/
  | top {path : CString} (hne : path ≠ []) (h : ∀ c ∈ path, c = slash) : PathParts path [slash] [slash]
  /-- There is one name, and no slash before it. -/
  | single {base tail : CString} (hne : base ≠ []) (hbase : slash ∉ base)
      (htail : ∀ c ∈ tail, c = slash) : PathParts (base ++ tail) dot base
  /-- There are slashes before the last name. -/
  | below {dir mid base tail : CString} (hmid : ∀ c ∈ mid, c = slash) (hmid0 : mid ≠ [])
      (hne : base ≠ []) (hbase : slash ∉ base) (htail : ∀ c ∈ tail, c = slash) :
      PathParts (dir ++ mid ++ base ++ tail) (if dir = [] then [slash] else dir) base

theorem of_mem_takeWhile_slash {c : UInt8} (h : c ∈ (a.takeWhile (· == slash)).reverse) : c = slash := by
  simpa using List.mem_takeWhile_imp (List.mem_reverse.mp h)

/-- What a `dropWhile` stops at. -/
theorem dropWhile_head {q : UInt8 → Bool} {c : UInt8} {l : List UInt8} (h : a.dropWhile q = c :: l) :
    q c = false := by
  have hne : a.dropWhile q ≠ [] := by
    rw [h]
    simp
  have hhead := List.head_dropWhile_not q hne
  simpa [h] using hhead

theorem path_parts (hnil : path ≠ []) : PathParts path (dirname path) (basename path) := by
  unfold dirname basename
  rw [if_neg hnil, if_neg hnil]
  -- from behind: slashes, the last name, slashes, and the rest
  have hcut : path = (path.reverse.dropWhile (· == slash)).reverse
      ++ (path.reverse.takeWhile (· == slash)).reverse := by
    rw [← List.reverse_append, List.takeWhile_append_dropWhile, List.reverse_reverse]
  have htail := fun c => of_mem_takeWhile_slash (a := path.reverse) (c := c)
  cases hlast : path.reverse.dropWhile (· == slash) with
  | nil =>
    rw [hlast] at hcut
    exact .top hnil (hcut ▸ htail)
  | cons c last =>
    have hc : c ≠ slash := by simpa using dropWhile_head hlast
    rw [hlast] at hcut
    dsimp only
    generalize hl : c :: last = l at hcut ⊢
    have hcut' : l.reverse = (l.dropWhile (· != slash)).reverse
        ++ (l.takeWhile (· != slash)).reverse := by
      rw [← List.reverse_append, List.takeWhile_append_dropWhile]
    have hbase : slash ∉ (l.takeWhile (· != slash)).reverse := fun h => by
      simpa using List.mem_takeWhile_imp (List.mem_reverse.mp h)
    have hne : (l.takeWhile (· != slash)).reverse ≠ [] := by
      rw [← hl, List.takeWhile_cons_of_pos (by simpa using hc)]
      simp
    rw [hcut'] at hcut
    cases hdir : l.dropWhile (· != slash) with
    | nil =>
      rw [hdir] at hcut
      rw [hcut]
      exact .single hne hbase htail
    | cons e dir =>
      have he : e = slash := by simpa using dropWhile_head hdir
      rw [hdir] at hcut
      have hmid := fun c => of_mem_takeWhile_slash (a := e :: dir) (c := c)
      have hmid0 : ((e :: dir).takeWhile (· == slash)).reverse ≠ [] := by
        rw [List.takeWhile_cons_of_pos (by simpa using he)]
        simp
      have hcut'' : (e :: dir).reverse = ((e :: dir).dropWhile (· == slash)).reverse
          ++ ((e :: dir).takeWhile (· == slash)).reverse := by
        rw [← List.reverse_append, List.takeWhile_append_dropWhile]
      rw [hcut''] at hcut
      have hbelow := @PathParts.below ((e :: dir).dropWhile (· == slash)).reverse _ _ _ hmid hmid0
        hne hbase htail
      rw [← hcut] at hbelow
      dsimp only
      cases hd : (e :: dir).dropWhile (· == slash) with
      | nil =>
        rw [hd] at hbelow
        exact hbelow
      | cons f rest =>
        rw [hd, if_neg (by simp)] at hbelow
        exact hbelow

theorem absolute_append (h : a ≠ []) : Absolute (a ++ b) ↔ Absolute a := by
  unfold Absolute
  rw [List.head?_append_of_ne_nil _ h]

/-- The directory of a path starts at the root if the path does. -/
theorem absolute_dirname (hnil : path ≠ []) : Absolute (dirname path) ↔ Absolute path := by
  have hparts := path_parts hnil
  generalize dirname path = dir at hparts
  generalize basename path = base at hparts
  cases hparts with
  | top hne h =>
    refine iff_of_true rfl ?_
    obtain ⟨c, rest, rfl⟩ := List.exists_cons_of_ne_nil hne
    exact congrArg some (h c (List.mem_cons_self ..))
  | single hne hbase htail =>
    refine iff_of_false (by decide) fun h => hbase ?_
    exact List.mem_of_head? ((absolute_append hne).mp h)
  | @below dir mid _ _ hmid hmid0 hne hbase htail =>
    split
    · rename_i hdir
      subst hdir
      refine iff_of_true rfl ?_
      obtain ⟨c, rest, rfl⟩ := List.exists_cons_of_ne_nil hmid0
      exact congrArg some (hmid c (List.mem_cons_self ..))
    · rename_i hdir
      rw [List.append_assoc, List.append_assoc, absolute_append hdir]

/-- **A path with a name is its directory and its last name.** -/
theorem pathNames_dirname (habs : Absolute path) (hne : pathNames path ≠ []) :
    pathNames path = pathNames (dirname path) ++ [basename path] := by
  have hnil : path ≠ [] := by
    rintro rfl
    cases habs
  have hparts := path_parts hnil
  generalize dirname path = dir at hparts ⊢
  generalize basename path = base at hparts ⊢
  cases hparts with
  | top _ h =>
    refine absurd ?_ hne
    rw [← List.nil_append path, pathNames_append_slashes h]
    rfl
  | single hbase0 hbase _ =>
    exact absurd (List.mem_of_head? ((absolute_append hbase0).mp habs)) hbase
  | @below dir _ _ _ hmid hmid0 hbase0 hbase htail =>
    rw [pathNames_append_slashes htail, pathNames_snoc hmid hmid0 hbase hbase0]
    split
    · rename_i hdir
      subst hdir
      rfl
    · rfl

/-- The names of the directory are names of the path. -/
theorem mem_dirname (h : Absolute (dirname path)) (hx : x ∈ pathNames (dirname path)) :
    Absolute path ∧ x ∈ pathNames path := by
  have hnil : path ≠ [] := by
    rintro rfl
    cases h
  have habs := (absolute_dirname hnil).mp h
  refine ⟨habs, ?_⟩
  by_cases hne : pathNames path = []
  · -- there are only slashes
    have hparts := path_parts hnil
    generalize dirname path = dir at hparts hx
    generalize basename path = base at hparts
    cases hparts with
    | top _ _ => exact absurd hx (List.not_mem_nil (a := x))
    | single hbase0 hbase _ =>
      exact absurd (List.mem_of_head? ((absolute_append hbase0).mp habs)) hbase
    | below hmid hmid0 hbase0 hbase htail =>
      rw [pathNames_append_slashes htail, pathNames_snoc hmid hmid0 hbase hbase0] at hne
      exact absurd hne (by simp)
  · rw [pathNames_dirname habs hne]
    exact List.mem_append_left _ hx

end Cyanurus
