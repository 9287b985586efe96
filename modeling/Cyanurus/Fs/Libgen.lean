import Cyanurus.Fs.Path

/-!
# `dirname` and `basename` as loops

`lib/libgen.c` goes through the string from behind, with an index that is decremented after it
is compared with zero, and cuts the string in place. Here the string is its bytes and the zero
behind them, and an access to anything else is a fault.

Each loop leaves the string cut where a `dropWhile` of its reverse ends. So the two functions
compute what the model of the file system takes for them, and **`path_splits`** follows from
what is known there.
-/

namespace Cyanurus

namespace Libgen

/-- The string in memory, with the zero behind it. -/
def cells (path : CString) : List UInt8 := path ++ [0]

/-- `path[i]` -/
def read (m : List UInt8) (i : Nat) : Except Halt UInt8 :=
  match m[i]? with
  | some c => .ok c
  | none => .error .fault

/-- `path[i] = '\0'` -/
def clear (m : List UInt8) (i : Nat) : Except Halt (List UInt8) :=
  if i < m.length then .ok (m.set i 0) else .error .fault

/-- The string at `path + i`. -/
def text (m : List UInt8) (i : Nat) : CString := (m.drop i).takeWhile (· != 0)

/-- `while (q(path[i])) if (!i--) return;`: the index where the loop ends, or `none` if it
returns. -/
def scanBack (q : UInt8 → Bool) (m : List UInt8) : Nat → Except Halt (Option Nat)
  | 0 => do
      let c ← read m 0
      .ok (if q c then none else some 0)
  | i + 1 => do
      let c ← read m (i + 1)
      if q c then scanBack q m i else .ok (some (i + 1))

/-- `dirname` -/
def dirname (m : List UInt8) : Except Halt CString := do
  let c ← read m 0
  if c = 0 then .ok dot
  else
    match ← scanBack (· == slash) m ((text m 0).length - 1) with
    | none => .ok [slash]
    | some i =>
      match ← scanBack (· != slash) m i with
      | none => .ok dot
      | some i =>
        match ← scanBack (· == slash) m i with
        | none => .ok [slash]
        | some i => do
            let m ← clear m (i + 1)
            .ok (text m 0)

/-- `while (i && path[i] == '/') path[i--] = '\0';` -/
def trim (m : List UInt8) : Nat → Except Halt (Nat × List UInt8)
  | 0 => .ok (0, m)
  | i + 1 => do
      let c ← read m (i + 1)
      if c = slash then do
        let m ← clear m (i + 1)
        trim m i
      else .ok (i + 1, m)

/-- `while (i && path[i-1] != '/') i--;` -/
def stepBack (m : List UInt8) : Nat → Except Halt Nat
  | 0 => .ok 0
  | i + 1 => do
      let c ← read m i
      if c = slash then .ok (i + 1) else stepBack m i

/-- `basename` -/
def basename (m : List UInt8) : Except Halt CString := do
  let c ← read m 0
  if c = 0 then .ok dot
  else
    let (i, m) ← trim m ((text m 0).length - 1)
    let i ← stepBack m i
    .ok (text m i)

variable {q : UInt8 → Bool} {m l z : List UInt8} {path : CString} {i : Nat}

theorem read_eq {c : UInt8} (h : m[i]? = some c) : read m i = .ok c := by
  unfold read
  rw [h]

theorem take_succ (h : i < l.length) : l.take (i + 1) = l.take i ++ [l[i]] := by
  rw [List.take_add_one, List.getElem?_eq_getElem h]
  rfl

/-- The string ends where the zeros begin. -/
theorem text_eq (hl : 0 ∉ l) (hz : ∀ c ∈ z, c = 0) (hi : i ≤ l.length) :
    text (l ++ z) i = l.drop i := by
  have hdrop : ∀ c ∈ l.drop i, (c != 0) = true := fun c hc =>
    bne_iff_ne.mpr fun h => hl (h ▸ List.mem_of_mem_drop hc)
  unfold text
  rw [List.drop_append_of_le_length hi, List.takeWhile_append_of_pos hdrop]
  cases z with
  | nil => exact List.append_nil _
  | cons c z =>
    rw [List.takeWhile_cons_of_neg (by simp [hz c (List.mem_cons_self ..)]), List.append_nil]

/-- A zero in the string cuts it. -/
theorem cut_eq (hp : 0 ∉ path) (hi : i ≤ path.length) :
    (do let m ← clear (cells path) i; .ok (text m 0)) = (.ok (path.take i) : Except Halt CString) := by
  have hset : (cells path).set i 0 = path.take i ++ 0 :: (cells path).drop (i + 1) := by
    rw [List.set_eq_take_append_cons_drop, if_pos (by simp [cells]; omega)]
    unfold cells
    rw [List.take_append_of_le_length hi]
  unfold clear
  rw [if_pos (by simp [cells]; omega), hset]
  show Except.ok (text _ 0) = _
  unfold text
  rw [List.drop_zero, List.takeWhile_append_of_pos fun c hc => ?_]
  · rw [List.takeWhile_cons_of_neg (by simp), List.append_nil]
  · exact bne_iff_ne.mpr fun h => hp (h ▸ List.mem_of_mem_take hc)

/-- A loop that goes back over the characters of a kind leaves the string without them. -/
theorem scanBack_eq (hi : i < path.length) : ∃ r, scanBack q (cells path) i = .ok r
    ∧ (r = none ∧ (path.take (i + 1)).reverse.dropWhile q = []
      ∨ ∃ j, r = some j ∧ j < path.length
        ∧ (path.take (i + 1)).reverse.dropWhile q = (path.take (j + 1)).reverse) := by
  have hread : ∀ {i} (h : i < path.length), read (cells path) i = .ok path[i] := fun h =>
    read_eq ((List.getElem?_append_left h).trans (List.getElem?_eq_getElem h))
  induction i with
  | zero =>
    refine ⟨_, by rw [scanBack, hread hi]; rfl, ?_⟩
    rw [take_succ hi, List.reverse_append, List.reverse_singleton, List.singleton_append]
    cases hq : q path[0] with
    | true => exact .inl ⟨rfl, by rw [List.dropWhile_cons_of_pos hq]; rfl⟩
    | false => exact .inr ⟨0, rfl, hi, by rw [List.dropWhile_cons_of_neg (by simp [hq]), take_succ hi]; rfl⟩
  | succ i ih =>
    obtain ⟨r, hrun, hr⟩ := ih (Nat.lt_of_succ_lt hi)
    rw [scanBack, hread hi]
    simp only [bind, Except.bind]
    rw [take_succ hi, List.reverse_append, List.reverse_singleton, List.singleton_append]
    cases hq : q path[i + 1] with
    | true =>
      rw [List.dropWhile_cons_of_pos hq]
      exact ⟨r, hrun, hr⟩
    | false =>
      refine ⟨some (i + 1), if_neg (by simp), .inr ⟨i + 1, rfl, hi, ?_⟩⟩
      rw [List.dropWhile_cons_of_neg (by simp [hq]), take_succ hi, List.reverse_append]
      rfl

theorem reverse_take_ne_nil {j : Nat} (hj : j < path.length) :
    ∃ c l, (path.take (j + 1)).reverse = c :: l :=
  ⟨path[j], (path.take j).reverse, by rw [take_succ hj, List.reverse_append]; rfl⟩

theorem first_eq (hp : 0 ∉ path) (hnil : path ≠ []) :
    ∃ c, read (cells path) 0 = .ok c ∧ c ≠ 0 ∧ (text (cells path) 0).length - 1 < path.length
      ∧ path.take ((text (cells path) 0).length - 1 + 1) = path := by
  obtain ⟨c, rest, rfl⟩ := List.exists_cons_of_ne_nil hnil
  have htext : text (cells (c :: rest)) 0 = c :: rest :=
    text_eq hp (by simp) (Nat.zero_le _)
  rw [htext]
  exact ⟨c, rfl, fun h => hp (h ▸ List.mem_cons_self ..), by simp, by simp⟩

/-- **`dirname` stays in the string.** -/
theorem dirname_eq (hp : 0 ∉ path) : dirname (cells path) = .ok (Cyanurus.dirname path) := by
  by_cases hnil : path = []
  · subst hnil
    rfl
  obtain ⟨c, hread, hc, hlt, hall⟩ := first_eq hp hnil
  unfold dirname Cyanurus.dirname
  rw [hread, if_neg hnil]
  simp only [bind, Except.bind, if_neg hc]
  -- each loop returns when a `dropWhile` leaves nothing
  obtain ⟨r, hrun, ⟨rfl, h⟩ | ⟨i, rfl, hi, h⟩⟩ := scanBack_eq (q := (· == slash)) hlt
  · rw [hall] at h
    rw [hrun, h]
  rw [hall] at h
  rw [hrun, h]
  obtain ⟨_, _, hcons⟩ := reverse_take_ne_nil hi
  simp only [hcons]
  rw [← hcons]
  obtain ⟨r, hrun, ⟨rfl, h⟩ | ⟨j, rfl, hj, h⟩⟩ := scanBack_eq (q := (· != slash)) hi
  · rw [hrun, h]
  rw [hrun, h]
  obtain ⟨_, _, hcons⟩ := reverse_take_ne_nil hj
  simp only [hcons]
  rw [← hcons]
  obtain ⟨r, hrun, ⟨rfl, h⟩ | ⟨k, rfl, hk, h⟩⟩ := scanBack_eq (q := (· == slash)) hj
  · rw [hrun, h]
  rw [hrun, h]
  obtain ⟨_, _, hcons⟩ := reverse_take_ne_nil hk
  simp only [hcons]
  rw [← hcons, List.reverse_reverse]
  exact cut_eq hp (Nat.succ_le_of_lt hk)

/-- Going back over slashes clears them; one at the start of the string stays. -/
theorem trim_eq (hi : i < path.length) (hz : ∀ c ∈ z, c = 0) : ∃ j z', j < path.length
    ∧ trim (path.take (i + 1) ++ z) i = .ok (j, path.take (j + 1) ++ z') ∧ (∀ c ∈ z', c = 0)
    ∧ ((path.take (i + 1)).reverse.dropWhile (· == slash) = (path.take (j + 1)).reverse
      ∨ j = 0 ∧ path.take 1 = [slash]
        ∧ (path.take (i + 1)).reverse.dropWhile (· == slash) = []) := by
  induction i generalizing z with
  | zero =>
    refine ⟨0, z, hi, rfl, hz, ?_⟩
    rw [take_succ hi, List.take_zero, List.nil_append]
    by_cases hc : path[0] = slash
    · rw [hc]
      exact .inr ⟨rfl, rfl, rfl⟩
    · exact .inl (List.dropWhile_cons_of_neg (by simpa using hc))
  | succ i ih =>
    have hlen : (path.take (i + 1)).length = i + 1 := by rw [List.length_take]; omega
    have hread : read (path.take (i + 1 + 1) ++ z) (i + 1) = .ok path[i + 1] := by
      refine read_eq ?_
      rw [take_succ hi, List.append_assoc, List.getElem?_append_right (Nat.le_of_eq hlen), hlen,
        Nat.sub_self]
      rfl
    rw [trim, hread]
    simp only [bind, Except.bind]
    by_cases hc : path[i + 1] = slash
    · have hclear : clear (path.take (i + 1 + 1) ++ z) (i + 1) = .ok (path.take (i + 1) ++ 0 :: z) := by
        unfold clear
        rw [if_pos (by simp; omega), take_succ hi, List.append_assoc,
          List.set_append_right _ _ (Nat.le_of_eq hlen), hlen, Nat.sub_self]
        rfl
      obtain ⟨j, z', hj, hrun, hz', hdrop⟩ := ih (Nat.lt_of_succ_lt hi) (z := 0 :: z) (by simpa using hz)
      refine ⟨j, z', hj, by rw [if_pos hc, hclear]; exact hrun, hz', ?_⟩
      rw [take_succ hi, List.reverse_append, List.reverse_singleton, List.singleton_append,
        List.dropWhile_cons_of_pos (by simpa using hc)]
      exact hdrop
    · refine ⟨i + 1, z, hi, if_neg hc, hz, .inl ?_⟩
      rw [take_succ hi, List.reverse_append, List.reverse_singleton, List.singleton_append,
        List.dropWhile_cons_of_neg (by simpa using hc)]

/-- Going back to a slash finds the last name. -/
theorem stepBack_eq (hi : i < m.length) : ∃ k, stepBack m i = .ok k ∧ k ≤ i
    ∧ (m.take i).drop k = ((m.take i).reverse.takeWhile (· != slash)).reverse := by
  induction i with
  | zero => exact ⟨0, rfl, Nat.le_refl _, rfl⟩
  | succ i ih =>
    have hi' := Nat.lt_of_succ_lt hi
    obtain ⟨k, hrun, hk, hdrop⟩ := ih hi'
    rw [stepBack, read_eq (List.getElem?_eq_getElem hi'), take_succ hi', List.reverse_append,
      List.reverse_singleton, List.singleton_append]
    simp only [bind, Except.bind]
    by_cases hc : m[i] = slash
    · refine ⟨i + 1, if_pos hc, Nat.le_refl _, ?_⟩
      rw [List.takeWhile_cons_of_neg (by simp [hc])]
      exact List.drop_of_length_le (by simp)
    · refine ⟨k, by rw [if_neg hc]; exact hrun, by omega, ?_⟩
      rw [List.takeWhile_cons_of_pos (by simpa using hc), List.reverse_cons, ← hdrop,
        List.drop_append_of_le_length (by rw [List.length_take]; omega)]

/-- **`basename` stays in the string.** -/
theorem basename_eq (hp : 0 ∉ path) : basename (cells path) = .ok (Cyanurus.basename path) := by
  by_cases hnil : path = []
  · subst hnil
    rfl
  obtain ⟨c, hread, hc, hlt, hall⟩ := first_eq hp hnil
  obtain ⟨j, z, hj, htrim, hz, hdrop⟩ := trim_eq (z := [0]) hlt (by simp)
  rw [hall] at htrim hdrop
  have htrim : trim (cells path) ((text (cells path) 0).length - 1) = .ok (j, path.take (j + 1) ++ z) :=
    htrim
  have hlen : (path.take (j + 1)).length = j + 1 := by rw [List.length_take]; omega
  obtain ⟨k, hstep, hk, hname⟩ := stepBack_eq (m := path.take (j + 1) ++ z) (i := j)
    (by rw [List.length_append]; omega)
  have htake : (path.take (j + 1) ++ z).take j = path.take j := by
    rw [List.take_append_of_le_length (by omega), List.take_take, Nat.min_eq_left (Nat.le_succ j)]
  have hrun : basename (cells path) = .ok ((path.take (j + 1)).drop k) := by
    unfold basename
    rw [hread]
    simp only [bind, Except.bind, if_neg hc, htrim, hstep]
    rw [text_eq (fun h => hp (List.mem_of_mem_take h)) hz (by omega)]
  rw [hrun]
  unfold Cyanurus.basename
  rw [if_neg hnil]
  rcases hdrop with hdrop | ⟨rfl, hslash, hdrop⟩
  · -- the last byte that is left is no slash, so it is in the last name
    have hlast : (path.take (j + 1)).reverse = path[j] :: (path.take j).reverse := by
      rw [take_succ hj, List.reverse_append]
      rfl
    rw [hlast] at hdrop
    have hc' := dropWhile_head hdrop
    rw [htake] at hname
    rw [hdrop, take_succ hj, List.drop_append_of_le_length (by rw [List.length_take]; omega), hname]
    simp only
    rw [List.takeWhile_cons_of_pos (by simpa using hc'), List.reverse_cons]
  · obtain rfl : k = 0 := Nat.le_zero.mp hk
    rw [hdrop, hslash]
    rfl

end Libgen

/-- **`dirname` and `basename` split a path.** Neither leaves the string, and of a path that
starts at the root and has a name they give the directory and the last name. -/
theorem path_splits (path : CString) (h0 : 0 ∉ path) : ∃ dir base,
    Libgen.dirname (Libgen.cells path) = .ok dir ∧ Libgen.basename (Libgen.cells path) = .ok base
      ∧ (Absolute path → pathNames path ≠ [] → pathNames dir = (pathNames path).dropLast
        ∧ (pathNames path).getLast? = some base ∧ Absolute dir) := by
  refine ⟨_, _, Libgen.dirname_eq h0, Libgen.basename_eq h0, fun habs hne => ?_⟩
  have hnil : path ≠ [] := by
    rintro rfl
    cases habs
  have hnames := pathNames_dirname habs hne
  refine ⟨?_, ?_, (absolute_dirname hnil).mpr habs⟩
  · rw [hnames, List.dropLast_concat]
  · rw [hnames, List.getLast?_concat]

/-- `//ab//c//` -/
def slashedPath : CString := [47, 47, 97, 98, 47, 47, 99, 47, 47]

theorem path_splits_slashes : ∃ dir base,
    Libgen.dirname (Libgen.cells slashedPath) = .ok dir
      ∧ Libgen.basename (Libgen.cells slashedPath) = .ok base
      ∧ (Absolute slashedPath → pathNames slashedPath ≠ [] →
        pathNames dir = (pathNames slashedPath).dropLast
          ∧ (pathNames slashedPath).getLast? = some base ∧ Absolute dir)
      ∧ Absolute slashedPath ∧ pathNames slashedPath = [[97, 98], [99]] := by
  obtain ⟨dir, base, hd, hb, h⟩ := path_splits slashedPath (by decide)
  exact ⟨dir, base, hd, hb, h, by decide, by decide⟩

end Cyanurus
