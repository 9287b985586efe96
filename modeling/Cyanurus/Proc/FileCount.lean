import Cyanurus.Proc.ProcessFrame
import Cyanurus.Proc.Files
import Mathlib.Data.Multiset.Replicate

/-!
# Counting descriptors

An open file counts the slots that name it, and a pipe counts the slots that name each of
its ends. `Counts` is the agreement of these counts with a multiset of references: the
operations on files are stated by what they do to it, one reference more or one less, while
the slots that go with the references are filled and emptied before or after.
-/

namespace Cyanurus

open Kernel

/-! ## Ends of pipes -/

inductive PipeEnd where
  | reading
  | writing
deriving DecidableEq, Repr

/-- The access mode of an end. -/
def PipeEnd.mode : PipeEnd → Nat
  | .reading => oRdonly
  | .writing => oWronly

variable {e e' : PipeEnd} {pipe : Nat} {F : File}

theorem PipeEnd.mode_inj (h : e.mode = e'.mode) : e = e' := by
  cases e with
  | reading =>
    cases e' with
    | reading => rfl
    | writing => cases h
  | writing =>
    cases e' with
    | reading => cases h
    | writing => rfl

def PipeEnd.other : PipeEnd → PipeEnd
  | .reading => .writing
  | .writing => .reading

/-- One of two things, by the end. -/
def PipeEnd.pick {α : Type} (reading writing : α) : PipeEnd → α
  | .reading => reading
  | .writing => writing

/-- The queue of the processes that sleep at an end. -/
def PipeEnd.waitq (pipe : Nat) : PipeEnd → Waitq
  | .reading => .readers pipe
  | .writing => .writers pipe

theorem PipeEnd.waitq_inj {q q' : Nat} (h : e.waitq q = e'.waitq q') :
    e = e' ∧ q = q' := by
  cases e <;> cases e' <;> simp_all [PipeEnd.waitq]

theorem PipeEnd.waitq_ne_child (e : PipeEnd) (q : Nat) : e.waitq q ≠ .child := by
  cases e <;> simp [PipeEnd.waitq]

def File.accmode (F : File) : Nat := F.flags &&& oAccmode

/-- The file is this end of the pipe. -/
def File.isEnd (F : File) (pipe : Nat) (e : PipeEnd) : Bool :=
  F.type == .pipe pipe && F.accmode == e.mode

theorem File.isEnd_iff :
    F.isEnd pipe e = true ↔ F.type = .pipe pipe ∧ F.accmode = e.mode := by
  simp [File.isEnd]

/-- The file with this name is this end of the pipe. -/
def endOf (files : Store File) (pipe : Nat) (e : PipeEnd) (file : Nat) : Bool :=
  (files.get file).any fun F => F.isEnd pipe e

theorem endOf_eq {files : Store File} {file : Nat} (h : files.get file = some F)
    (e : PipeEnd) : endOf files pipe e file = F.isEnd pipe e := by
  simp [endOf, h]

/-- The slots that a pipe counts for one of its ends. -/
def Pipe.ends (Q : Pipe) : PipeEnd → Nat
  | .reading => Q.readers
  | .writing => Q.writers

/-- One slot less of an end. -/
def Pipe.close (Q : Pipe) : PipeEnd → Pipe
  | .reading => ⟨Q.readers - 1, Q.writers⟩
  | .writing => ⟨Q.readers, Q.writers - 1⟩

/-- One slot more of an end. -/
def Pipe.countup (Q : Pipe) : PipeEnd → Pipe
  | .reading => { Q with readers := Q.readers + 1 }
  | .writing => { Q with writers := Q.writers + 1 }

theorem Pipe.ends_close (Q : Pipe) (e e' : PipeEnd) :
    (Q.close e).ends e' = if e' = e then Q.ends e' - 1 else Q.ends e' := by
  cases e <;> cases e' <;> rfl

theorem Pipe.ends_countup (Q : Pipe) (e e' : PipeEnd) :
    (Q.countup e).ends e' = if e' = e then Q.ends e' + 1 else Q.ends e' := by
  cases e <;> cases e' <;> rfl

theorem Pipe.used_of_ends {Q : Pipe} (h : 0 < Q.ends e) :
    ¬ (Q.readers = 0 ∧ Q.writers = 0) := by
  rintro ⟨hr, hw⟩
  cases e with
  | reading => exact Nat.ne_of_gt h hr
  | writing => exact Nat.ne_of_gt h hw

/-! ## Counts -/

/-- The counts of files and pipes are those of the references `R`, and nothing is kept that
no reference leads to. -/
structure Counts (files : Store File) (pipes : Store Pipe) (R : Multiset Nat) : Prop where
  count : ∀ {f F}, files.get f = some F → F.count = R.count f ∧ 0 < F.count
  live : ∀ {f}, f ∈ R → ∃ F, files.get f = some F
  /-- A file of a pipe is one of its ends. -/
  pipe : ∀ {f F q}, files.get f = some F → F.type = .pipe q →
    (∃ Q, pipes.get q = some Q) ∧ ∃ e : PipeEnd, F.accmode = e.mode
  ends : ∀ {q Q}, pipes.get q = some Q → ∀ e, Q.ends e = R.countP (endOf files q e ·)
  /-- A pipe has an open end. -/
  used : ∀ {q Q}, pipes.get q = some Q → ∃ e, 0 < Q.ends e

section Counts

variable {files files' : Store File} {pipes : Store Pipe} {R : Multiset Nat} {f q : Nat} {F : File}
  {e : PipeEnd}

theorem countP_ends_congr (h : ∀ f ∈ R, endOf files' q e f = endOf files q e f) :
    R.countP (endOf files' q e ·) = R.countP (endOf files q e ·) :=
  Multiset.countP_congr rfl fun f hf => by rw [h f hf]

theorem Counts.mem (h : Counts files pipes R) (hf : files.get f = some F) : f ∈ R := by
  obtain ⟨h1, h2⟩ := h.count hf
  exact Multiset.count_pos.mp (h1 ▸ h2)

theorem Counts.empty : Counts .empty .empty 0 :=
  ⟨fun h => absurd h (by simp [Store.empty]), fun h => absurd h (by simp),
    fun h => absurd h (by simp [Store.empty]), fun h => absurd h (by simp [Store.empty]),
    fun h => absurd h (by simp [Store.empty])⟩

/-- A new file that is no end of a pipe, with its first references. -/
theorem Counts.alloc (h : Counts files pipes R) (F : File) (hpos : 0 < F.count)
    (htype : ∀ q, F.type ≠ .pipe q) :
    Counts (files.alloc F) pipes (Multiset.replicate F.count files.next + R) := by
  have hfresh : files.next ∉ R := fun hmem => by
    obtain ⟨F₀, hF₀⟩ := h.live hmem
    exact Nat.lt_irrefl _ (Store.lt_next hF₀)
  have hnew : ∀ q e, endOf (files.alloc F) q e files.next = false := fun q e => by
    rw [endOf_eq Store.alloc_self]
    simp [File.isEnd, htype q]
  have hold : ∀ g ∈ R, (files.alloc F).get g = files.get g := fun g hg =>
    Store.alloc_ne (fun h => hfresh (h ▸ hg))
  refine ⟨fun {g G} hg => ?_, fun {g} hg => ?_, fun {g G q} hg ht => ?_, fun {q Q} hq e => ?_, h.used⟩
  · by_cases hgn : g = files.next
    · subst hgn
      rw [Store.alloc_self] at hg
      cases hg
      rw [Multiset.count_add, Multiset.count_replicate_self, Multiset.count_eq_zero.mpr hfresh]
      exact ⟨rfl, hpos⟩
    · rw [Store.alloc_ne hgn] at hg
      rw [Multiset.count_add, Multiset.count_replicate, if_neg (Ne.symm hgn), Nat.zero_add]
      exact h.count hg
  · rcases Multiset.mem_add.mp hg with hg | hg
    · rw [Multiset.eq_of_mem_replicate hg]
      exact ⟨F, Store.alloc_self⟩
    · rw [hold g hg]
      exact h.live hg
  · by_cases hgn : g = files.next
    · subst hgn
      rw [Store.alloc_self] at hg
      cases hg
      exact absurd ht (htype q)
    · rw [Store.alloc_ne hgn] at hg
      exact h.pipe hg ht
  · have hnone : (Multiset.replicate F.count files.next).countP (endOf (files.alloc F) q e ·) = 0 := by
      refine Multiset.countP_eq_zero.mpr fun g hg => ?_
      rw [Multiset.eq_of_mem_replicate hg, hnew q e]
      simp
    rw [h.ends hq e, Multiset.countP_add, hnone, Nat.zero_add]
    exact (countP_ends_congr fun g hg => by unfold endOf; rw [hold g hg]).symm

/-- A change of the fields of a file that makes no end of a pipe and keeps the ends there are. -/
theorem Counts.setFile (h : Counts files pipes R) {g : File → File}
    (hcount : ∀ F, (g F).count = F.count)
    (hends : ∀ F, files.get f = some F → (∀ q, F.type ≠ .pipe q ∧ (g F).type ≠ .pipe q)
      ∨ ((g F).type = F.type ∧ (g F).accmode = F.accmode)) :
    Counts (files.modify f g) pipes R := by
  have hsame : ∀ F q e, files.get f = some F → (g F).isEnd q e = F.isEnd q e := by
    intro F q e hF
    rw [Bool.eq_iff_iff, File.isEnd_iff, File.isEnd_iff]
    rcases hends F hF with hno | ⟨ht, hm⟩
    · exact ⟨fun h => absurd h.1 (hno q).2, fun h => absurd h.1 (hno q).1⟩
    · rw [ht, hm]
  refine ⟨fun {a A} ha => ?_, fun {a} ha => ?_, fun {a A q} ha ht => ?_, fun {q Q} hq e => ?_, h.used⟩
  · obtain ⟨A₀, hA₀, rfl⟩ := Store.get_modify ha
    have hc := h.count hA₀
    split
    · rw [hcount]
      exact hc
    · exact hc
  · obtain ⟨A, hA⟩ := h.live ha
    have := Store.isSome_modify (s := files) (p := f) (q := a) (f := g)
    rw [hA] at this
    exact Option.isSome_iff_exists.mp this
  · obtain ⟨A₀, hA₀, rfl⟩ := Store.get_modify ha
    by_cases haf : a = f
    · subst haf
      rw [if_pos rfl] at ht ⊢
      rcases hends A₀ hA₀ with hno | ⟨ht', hm⟩
      · exact absurd ht (hno q).2
      · rw [hm]
        exact h.pipe hA₀ (ht' ▸ ht)
    · rw [if_neg haf] at ht ⊢
      exact h.pipe hA₀ ht
  · rw [h.ends hq e]
    refine (countP_ends_congr fun a ha => ?_).symm
    obtain ⟨A, hA⟩ := h.live ha
    by_cases haf : a = f
    · subst haf
      rw [endOf_eq hA, endOf_eq (F := g A) (by rw [Store.modify_self, hA]; rfl), hsame A q e hA]
    · rw [endOf_eq hA, endOf_eq (F := A) (by rw [Store.modify_ne haf, hA])]

/-! ## Files that stay -/

/-- Files are freed and made, and the ends of pipes among those that stay are the same. -/
structure Kept (files files' : Store File) : Prop where
  next : files.next ≤ files'.next
  gone : ∀ {f}, f < files.next → files.get f = none → files'.get f = none
  ends : ∀ {f q e}, endOf files q e f = true → files'.get f = none ∨ endOf files' q e f = true

theorem Kept.refl (files : Store File) : Kept files files :=
  ⟨Nat.le_refl _, fun _ h => h, fun h => .inr h⟩

theorem Kept.trans {files'' : Store File} (h : Kept files files') (h' : Kept files' files'') :
    Kept files files'' := by
  refine ⟨Nat.le_trans h.next h'.next,
    fun hf hn => h'.gone (Nat.lt_of_lt_of_le hf h.next) (h.gone hf hn), fun {f q e} he => ?_⟩
  have hlt : f < files.next := by
    unfold endOf at he
    cases hF : files.get f with
    | none =>
      rw [hF] at he
      cases he
    | some F => exact Store.lt_next hF
  rcases h.ends he with hn | he
  · exact .inl (h'.gone (Nat.lt_of_lt_of_le hlt h.next) hn)
  · exact h'.ends he

theorem Kept.modify {g : File → File}
    (hg : ∀ F, files.get f = some F → ∀ q e, F.isEnd q e = true → (g F).isEnd q e = true) :
    Kept files (files.modify f g) := by
  refine ⟨Nat.le_refl _, fun {a} _ hn => ?_, fun {a q e} he => .inr ?_⟩
  · have := Store.isSome_modify (s := files) (p := f) (q := a) (f := g)
    rw [hn] at this
    exact Option.not_isSome_iff_eq_none.mp (by rw [this]; simp)
  · unfold endOf at he ⊢
    by_cases haf : a = f
    · subst haf
      rw [Store.modify_self]
      cases hA : files.get a with
      | none =>
        rw [hA] at he
        cases he
      | some A =>
        rw [hA] at he
        exact hg A hA q e he
    · rw [Store.modify_ne haf]
      exact he

theorem Kept.free (files : Store File) (f : Nat) : Kept files (files.free f) := by
  refine ⟨Nat.le_refl _, fun {a} _ hn => ?_, fun {a q e} he => ?_⟩
  · by_cases haf : a = f
    · rw [haf, Store.free_self]
    · rw [Store.free_ne haf, hn]
  · by_cases haf : a = f
    · exact .inl (by rw [haf, Store.free_self])
    · refine .inr ?_
      unfold endOf at he ⊢
      rw [Store.free_ne haf]
      exact he

theorem Kept.alloc (files : Store File) (F : File) : Kept files (files.alloc F) := by
  refine ⟨Nat.le_succ _, fun {a} ha hn => by rw [Store.alloc_ne (Nat.ne_of_lt ha), hn],
    fun {a q e} he => .inr ?_⟩
  unfold endOf at he ⊢
  cases hA : files.get a with
  | none =>
    rw [hA] at he
    cases he
  | some A =>
    rw [hA] at he
    rw [Store.alloc_of_some hA]
    exact he

/-! ## Sharing and closing a file -/

/-- A file is no end of a pipe, or one end of one. -/
theorem Counts.kind (h : Counts files pipes R) (hf : files.get f = some F) :
    ((∀ q, F.type ≠ .pipe q) ∧ ∀ q e, F.isEnd q e = false) ∨ ∃ q₀ e₀ Q, F.type = .pipe q₀ ∧ F.accmode = e₀.mode
      ∧ pipes.get q₀ = some Q ∧ ∀ q e, F.isEnd q e = decide (q = q₀ ∧ e = e₀) := by
  cases ht : F.type with
  | pipe q₀ =>
    obtain ⟨⟨Q, hQ⟩, e₀, he₀⟩ := h.pipe hf ht
    refine .inr ⟨q₀, e₀, Q, rfl, he₀, hQ, fun q e => ?_⟩
    rw [Bool.eq_iff_iff, File.isEnd_iff, ht, he₀, decide_eq_true_iff]
    constructor
    · rintro ⟨hq, he⟩
      exact ⟨(FileType.pipe.inj hq).symm, (PipeEnd.mode_inj he).symm⟩
    · rintro ⟨rfl, rfl⟩
      exact ⟨rfl, rfl⟩
  | unused | tty | inode => exact .inl ⟨fun q => by simp, fun q e => by simp [File.isEnd, ht]⟩

theorem countP_ends_cons (hf : files.get f = some F) (q : Nat) (e : PipeEnd) (R : Multiset Nat) :
    Multiset.countP (endOf files q e ·) (f ::ₘ R)
      = R.countP (endOf files q e ·) + if F.isEnd q e then 1 else 0 := by
  rw [Multiset.countP_cons, endOf_eq hf]

/-- Counts that change where the files stay the same ends. -/
theorem Counts.recount {pipes' : Store Pipe} {R' : Multiset Nat} (h : Counts files pipes R)
    (hfile : ∀ {g G'}, files'.get g = some G' → ∃ G, files.get g = some G ∧ G'.type = G.type
      ∧ G'.accmode = G.accmode ∧ G'.count = R'.count g ∧ 0 < G'.count)
    (hlive : ∀ {g}, g ∈ R' → ∃ G', files'.get g = some G')
    (hpipe : ∀ {g G q}, g ∈ R' → files.get g = some G → G.type = .pipe q →
      ∃ Q', pipes'.get q = some Q')
    (hends : ∀ {q Q'}, pipes'.get q = some Q' →
      (∀ e, Q'.ends e = R'.countP (endOf files q e ·)) ∧ ∃ e, 0 < Q'.ends e) :
    Counts files' pipes' R' := by
  have hcount : ∀ {g G'}, files'.get g = some G' → G'.count = R'.count g ∧ 0 < G'.count := by
    intro g G' hg
    obtain ⟨_, _, _, _, hc⟩ := hfile hg
    exact hc
  refine ⟨hcount, hlive, fun {g G' q} hg ht => ?_, fun {q Q'} hq e => ?_, fun hq => (hends hq).2⟩
  · obtain ⟨G, hG, ht', hm, hc, hpos⟩ := hfile hg
    rw [ht'] at ht
    rw [hm]
    exact ⟨hpipe (Multiset.count_pos.mp (hc ▸ hpos)) hG ht, (h.pipe hG ht).2⟩
  · rw [(hends hq).1 e]
    refine (countP_ends_congr fun g hg => ?_).symm
    obtain ⟨G', hG'⟩ := hlive hg
    obtain ⟨G, hG, ht, hm, _⟩ := hfile hG'
    rw [endOf_eq hG', endOf_eq hG, File.isEnd, File.isEnd, ht, hm]

/-- The files when one of them counts one reference more. -/
theorem Counts.countup_files (h : Counts files pipes R) (hf : f ∈ R) :
    (∀ {g G'}, (files.modify f fun F => { F with count := F.count + 1 }).get g = some G' →
      ∃ G, files.get g = some G ∧ G'.type = G.type ∧ G'.accmode = G.accmode
        ∧ G'.count = (f ::ₘ R).count g ∧ 0 < G'.count)
    ∧ ∀ {g}, g ∈ f ::ₘ R →
      ∃ G', (files.modify f fun F => { F with count := F.count + 1 }).get g = some G' := by
  refine ⟨fun {g G'} hg => ?_, fun {g} hg => ?_⟩
  · obtain ⟨G, hG, rfl⟩ := Store.get_modify hg
    obtain ⟨hc, hpos⟩ := h.count hG
    refine ⟨G, hG, ?_⟩
    by_cases hgf : g = f
    · rw [if_pos hgf, hgf, Multiset.count_cons_self, ← hgf, ← hc]
      exact ⟨rfl, rfl, rfl, Nat.succ_pos _⟩
    · rw [if_neg hgf, Multiset.count_cons_of_ne hgf]
      exact ⟨rfl, rfl, hc, hpos⟩
  · have hmem : g ∈ R := by
      rcases Multiset.mem_cons.mp hg with rfl | hg
      · exact hf
      · exact hg
    obtain ⟨G, hG⟩ := h.live hmem
    by_cases hgf : g = f
    · exact ⟨_, by rw [hgf, Store.modify_self, ← hgf, hG]; rfl⟩
    · exact ⟨G, by rw [Store.modify_ne hgf, hG]⟩

/-- The files when `F`, named `f`, counts one reference less, and goes with its last. -/
def dropFile (files : Store File) (f : Nat) (F : File) : Store File :=
  if F.count - 1 = 0 then (files.modify f fun F => { F with count := F.count - 1 }).free f
  else files.modify f fun F => { F with count := F.count - 1 }

theorem Kept.dropFile (files : Store File) (f : Nat) (F : File) :
    Kept files (dropFile files f F) := by
  have hcount : Kept files (files.modify f fun F => { F with count := F.count - 1 }) :=
    .modify fun _ _ _ _ h => h
  unfold Cyanurus.dropFile
  split
  · exact hcount.trans (.free _ f)
  · exact hcount

theorem Counts.close_files (h : Counts files pipes (f ::ₘ R)) (hf : files.get f = some F)
    (hfiles : files' = dropFile files f F) :
    (∀ {g G'}, files'.get g = some G' → ∃ G, files.get g = some G ∧ G'.type = G.type
      ∧ G'.accmode = G.accmode ∧ G'.count = R.count g ∧ 0 < G'.count)
    ∧ ∀ {g}, g ∈ R → ∃ G', files'.get g = some G' := by
  have hcount : F.count = R.count f + 1 := by rw [(h.count hf).1, Multiset.count_cons_self]
  have hothers : ∀ g, g ≠ f → files'.get g = files.get g := by
    intro g hgf
    subst hfiles
    unfold dropFile
    split
    · rw [Store.free_ne hgf, Store.modify_ne hgf]
    · rw [Store.modify_ne hgf]
  have hself : files'.get f = if R.count f = 0 then none else some { F with count := R.count f } := by
    subst hfiles
    unfold dropFile
    rw [hcount, Nat.add_sub_cancel]
    split
    · exact Store.free_self
    · rw [Store.modify_self, hf, Option.map_some, hcount, Nat.add_sub_cancel]
  refine ⟨fun {g G'} hg => ?_, fun {g} hg => ?_⟩
  · by_cases hgf : g = f
    · subst hgf
      rw [hself] at hg
      split at hg
      · cases hg
      · cases hg
        exact ⟨F, hf, rfl, rfl, rfl, Nat.pos_of_ne_zero ‹_›⟩
    · rw [hothers g hgf] at hg
      obtain ⟨hc, hpos⟩ := h.count hg
      rw [Multiset.count_cons_of_ne hgf] at hc
      exact ⟨G', hg, rfl, rfl, hc, hpos⟩
  · by_cases hgf : g = f
    · subst hgf
      rw [hself, if_neg (Nat.ne_of_gt (Multiset.count_pos.mpr hg))]
      exact ⟨_, rfl⟩
    · rw [hothers g hgf]
      exact h.live (Multiset.mem_cons_of_mem hg)

/-- The counts of a pipe that lost an end are those of the references that are left. -/
theorem Counts.ends_close {q₀ : Nat} {e₀ : PipeEnd} {Q₀ : Pipe} (h : Counts files pipes (f ::ₘ R)) (hF : files.get f = some F)
    (hends : ∀ q e, F.isEnd q e = decide (q = q₀ ∧ e = e₀)) (hQ₀ : pipes.get q₀ = some Q₀)
    (e : PipeEnd) : (Q₀.close e₀).ends e = R.countP (endOf files q₀ e ·) := by
  rw [Pipe.ends_close, h.ends hQ₀ e, countP_ends_cons hF, hends q₀ e]
  by_cases he : e = e₀
  · simp [he]
  · simp [he]

/-! ## A new pipe -/

/-- Two files that are of no type become the ends of a new pipe. -/
theorem Counts.makeEnds (h : Counts files pipes R) (file flags : PipeEnd → Nat)
    (hinj : ∀ {e e'}, file e = file e' → e = e')
    (hold : ∀ e, files.get (file e) = some ⟨.unused, 0, 0, 1⟩)
    (hmode : ∀ e, flags e &&& oAccmode = e.mode)
    (hnew : ∀ e, files'.get (file e) = some ⟨.pipe pipes.next, flags e, 0, 1⟩)
    (hother : ∀ c, (∀ e, c ≠ file e) → files'.get c = files.get c) :
    Counts files' (pipes.alloc ⟨1, 1⟩) R := by
  -- a file is one of the two, or what it was
  have hcase : ∀ c, (∃ e, c = file e) ∨ (∀ e, c ≠ file e) ∧ files'.get c = files.get c := by
    intro c
    by_cases hc : ∃ e, c = file e
    · exact .inl hc
    · exact .inr ⟨not_exists.mp hc, hother c (not_exists.mp hc)⟩
  have hcount : ∀ e, R.count (file e) = 1 := fun e => (h.count (hold e)).1.symm
  refine ⟨fun {c C} hc => ?_, fun {c} hc => ?_, fun {c C q} hc ht => ?_, fun {q Q} hq e => ?_,
    fun {q Q} hq => ?_⟩
  · rcases hcase c with ⟨e, rfl⟩ | ⟨_, hsame⟩
    · cases (hnew e).symm.trans hc
      exact ⟨(hcount e).symm, Nat.one_pos⟩
    · exact h.count (hsame ▸ hc)
  · rcases hcase c with ⟨e, rfl⟩ | ⟨_, hsame⟩
    · exact ⟨_, hnew e⟩
    · rw [hsame]
      exact h.live hc
  · rcases hcase c with ⟨e, rfl⟩ | ⟨_, hsame⟩
    · cases (hnew e).symm.trans hc
      cases ht
      exact ⟨⟨_, Store.alloc_self⟩, e, hmode e⟩
    · obtain ⟨⟨Q, hQ⟩, hm⟩ := h.pipe (hsame ▸ hc) ht
      exact ⟨⟨Q, Store.alloc_of_some hQ⟩, hm⟩
  · by_cases hqn : q = pipes.next
    · subst hqn
      rw [Store.alloc_self] at hq
      cases hq
      -- of the files that have references, the one at this end is new
      have hend : ∀ c ∈ R, endOf files' pipes.next e c = true ↔ c = file e := by
        intro c hc
        rcases hcase c with ⟨e', rfl⟩ | ⟨hne, hsame⟩
        · rw [endOf_eq (hnew e'), File.isEnd_iff]
          exact ⟨fun h => congrArg file (PipeEnd.mode_inj ((hmode e').symm.trans h.2)),
            fun h => ⟨rfl, hinj h ▸ hmode e'⟩⟩
        · obtain ⟨C, hC⟩ := h.live hc
          rw [endOf_eq (hsame.trans hC), File.isEnd_iff]
          refine ⟨fun he => ?_, fun he => absurd he (hne e)⟩
          obtain ⟨Q, hQ⟩ := (h.pipe hC he.1).1
          exact absurd (Store.lt_next hQ) (Nat.lt_irrefl _)
      have hone : R.countP (endOf files' pipes.next e ·) = R.count (file e) :=
        Multiset.countP_congr rfl fun c hc => propext ((hend c hc).trans eq_comm)
      rw [hone, hcount]
      cases e <;> rfl
    · rw [Store.alloc_ne hqn] at hq
      rw [h.ends hq e]
      refine (countP_ends_congr fun c hc => ?_).symm
      rcases hcase c with ⟨e', rfl⟩ | ⟨_, hsame⟩
      · rw [endOf_eq (hnew e'), endOf_eq (hold e'), Bool.eq_iff_iff, File.isEnd_iff, File.isEnd_iff]
        exact ⟨fun h => absurd (FileType.pipe.inj h.1).symm hqn, fun h => absurd h.1 (by simp)⟩
      · unfold endOf
        rw [hsame]
  · by_cases hqn : q = pipes.next
    · subst hqn
      rw [Store.alloc_self] at hq
      cases hq
      exact ⟨.reading, Nat.one_pos⟩
    · rw [Store.alloc_ne hqn] at hq
      exact h.used hq

end Counts

namespace Kernel

variable {k k' : Kernel} {R : Multiset Nat} {f q flags : Nat} {e : PipeEnd} {Q : Pipe}
  {Q' : Pipe} {q' : Nat} {pipes : Store Pipe}

theorem pipeCountup_ok (k : Kernel) (q : Nat) (h : flags &&& oAccmode = e.mode) :
    k.pipeCountup q flags = .ok { k with pipes := k.pipes.modify q fun Q => Q.countup e } := by
  unfold pipeCountup
  cases e with
  | reading =>
    have h : flags &&& oAccmode = oRdonly := h
    rw [if_pos h]
    rfl
  | writing =>
    have h : flags &&& oAccmode = oWronly := h
    rw [if_neg (by rw [h]; decide), if_pos h]
    rfl

/-- A process sleeps at an end of a pipe only while the other end is open. -/
def Served (k : Kernel) : Prop :=
  ∀ p q (e : PipeEnd), p ∈ k.waitqs (e.waitq q) →
    ∃ Q, k.pipes.get q = some Q ∧ 0 < Q.ends e.other

/-- Pipes whose open ends stay open. -/
theorem Served.mono (h : k.Served) (hw : ∀ q, k'.waitqs q ⊆ k.waitqs q)
    (hp : ∀ {q Q}, k.pipes.get q = some Q → ∃ Q', k'.pipes.get q = some Q' ∧ ∀ e, Q.ends e ≤ Q'.ends e) :
    k'.Served := by
  intro p q e hmem
  obtain ⟨Q, hQ, hpos⟩ := h p q e (hw _ hmem)
  obtain ⟨Q', hQ', hle⟩ := hp hQ
  exact ⟨Q', hQ', Nat.lt_of_lt_of_le hpos (hle _)⟩

/-- **Sharing a file** adds a reference to it. -/
theorem countupFile_counts (h : Counts k.files k.pipes R) (hf : f ∈ R) :
    ∃ k', k.countupFile f = .ok k' ∧ Counts k'.files k'.pipes (f ::ₘ R) := by
  obtain ⟨F, hF⟩ := h.live hf
  obtain ⟨hfile, hlive⟩ := h.countup_files hf
  unfold countupFile
  rw [hF]
  simp only
  rcases h.kind hF with ⟨hno, hends⟩ | ⟨q₀, e₀, Q₀, ht, hm, hQ₀, hends⟩
  · have hpipes : Counts (k.files.modify f fun F => { F with count := F.count + 1 }) k.pipes
        (f ::ₘ R) := by
      refine h.recount hfile hlive (fun hg hG ht => (h.pipe hG ht).1) fun {q Q} hQ => ⟨fun e => ?_, h.used hQ⟩
      rw [countP_ends_cons hF, hends q e, h.ends hQ e]
      rfl
    cases ht : F.type with
    | pipe q => exact absurd ht (hno q)
    | unused | tty | inode => exact ⟨_, rfl, hpipes⟩
  · rw [ht]
    refine ⟨_, pipeCountup_ok _ q₀ hm, h.recount hfile hlive (fun {g G q} hg hG ht => ?_)
      fun {q Q'} hQ' => ?_⟩
    · obtain ⟨Q, hQ⟩ := (h.pipe hG ht).1
      have hsome := Store.isSome_modify (s := k.pipes) (p := q₀) (q := q) (f := fun Q => Q.countup e₀)
      rw [hQ] at hsome
      exact Option.isSome_iff_exists.mp hsome
    · obtain ⟨Q, hQ, rfl⟩ := Store.get_modify hQ'
      have hcount : ∀ e, (if q = q₀ then Q.countup e₀ else Q).ends e
          = Q.ends e + if F.isEnd q e then 1 else 0 := by
        intro e
        rw [hends q e]
        by_cases hq : q = q₀
        · rw [if_pos hq, Pipe.ends_countup]
          by_cases he : e = e₀
          · simp [hq, he]
          · simp [he]
        · simp [hq]
      refine ⟨fun e => ?_, ?_⟩
      · rw [hcount e, countP_ends_cons hF, h.ends hQ e]
      · obtain ⟨e, he⟩ := h.used hQ
        exact ⟨e, by rw [hcount e]; omega⟩

theorem countupFile_kept (h : k.countupFile f = .ok k') :
    Kept k.files k'.files ∧ (k.Served → k'.Served) := by
  have hcount : Kept k.files (k.files.modify f fun F => { F with count := F.count + 1 }) :=
    .modify fun _ _ _ _ h => h
  -- a pipe that counts one slot more
  have hpipe : ∀ q (g : Pipe → Pipe), (∀ Q e, Q.ends e ≤ (g Q).ends e) → k.Served →
      Served { k with
        files := k.files.modify f fun F => { F with count := F.count + 1 }
        pipes := k.pipes.modify q g } := by
    intro q g hg hs
    refine hs.mono (fun _ _ h => h) fun {q' Q} hQ => ?_
    by_cases hqq : q' = q
    · exact ⟨g Q, Store.modify_self_of hQ hqq, fun e => hg Q e⟩
    · exact ⟨Q, (Store.modify_ne hqq).trans hQ, fun _ => Nat.le_refl _⟩
  unfold countupFile at h
  split at h
  · cases h
  split at h
  · unfold pipeCountup at h
    split at h
    · cases h
      exact ⟨hcount, hpipe _ _ fun Q e => by cases e <;> simp [Pipe.ends]⟩
    split at h
    · cases h
      exact ⟨hcount, hpipe _ _ fun Q e => by cases e <;> simp [Pipe.ends]⟩
    · cases h
  · cases h
    exact ⟨hcount, fun hs => hs.mono (fun _ _ h => h) fun hQ => ⟨_, hQ, fun _ => Nat.le_refl _⟩⟩

/-! ## Closing a file -/

/-- The pipes when the counts of one of them have gone down to `Q`. -/
def closePipe (pipes : Store Pipe) (q : Nat) (Q : Pipe) : Store Pipe :=
  if Q.readers = 0 ∧ Q.writers = 0 then (pipes.modify q fun _ => Q).free q
  else pipes.modify q fun _ => Q

theorem wakeAll_files (q : Waitq) (hq : q ≠ .child) (n : Nat) (k : Kernel) :
    (wakeAll q n k).files = k.files ∧ (wakeAll q n k).pipes = k.pipes := by
  refine wakeAll_keeps (Φ := fun k' => k'.files = k.files ∧ k'.pipes = k.pipes) hq
    (fun k1 q1 _ h => ?_) n k ⟨rfl, rfl⟩
  unfold processWake
  split
  · exact h
  · exact h

theorem wakeAll_waitqs (q : Waitq) : ∀ (n : Nat) (k : Kernel), (wakeAll q n k).waitqs
    = Function.update k.waitqs q ((k.waitqs q).drop n)
  | 0, k => by
    rw [List.drop_zero, Function.update_eq_self]
    rfl
  | n + 1, k => by
    unfold wakeAll processWake
    cases hq : k.waitqs q with
    | nil =>
      have hself : Function.update k.waitqs q [] = k.waitqs := by
        rw [← hq]
        exact Function.update_eq_self q k.waitqs
      rw [List.drop_nil, hself]
    | cons p rest =>
      rw [wakeAll_waitqs q n]
      simp

/-- The queues when an end was closed, with the other side woken when it was the last. -/
def closeQueues (waitqs : Waitq → List Nat) (q : Nat) (Q : Pipe) (e : PipeEnd) : Waitq → List Nat :=
  if Q.ends e = 0 then Function.update waitqs (e.other.waitq q) [] else waitqs

/-- Closing an end. -/
theorem pipeClose_eq (k : Kernel) (q : Nat) (Q : Pipe) (e : PipeEnd) :
    let k1 := { k with pipes := k.pipes.modify q fun _ => Q }
    let k' := (if Q.ends e = 0 then wakeAll (e.other.waitq q) (k1.waitqs (e.other.waitq q)).length k1
      else k1).pipeDrop q Q.readers Q.writers
    k'.files = k.files ∧ k'.pipes = closePipe k.pipes q Q ∧ k'.waitqs = closeQueues k.waitqs q Q e := by
  have hdrop : ∀ k1 : Kernel, k1.files = k.files → k1.pipes = k.pipes.modify q (fun _ => Q) →
      (k1.pipeDrop q Q.readers Q.writers).files = k.files
        ∧ (k1.pipeDrop q Q.readers Q.writers).pipes = closePipe k.pipes q Q
        ∧ (k1.pipeDrop q Q.readers Q.writers).waitqs = k1.waitqs := by
    intro k1 hf hp
    unfold pipeDrop closePipe
    split
    · exact ⟨hf, by rw [← hp], rfl⟩
    · exact ⟨hf, hp, rfl⟩
  have hside : e.other.waitq q ≠ .child := e.other.waitq_ne_child q
  intro k1 k'
  unfold k' closeQueues
  split
  · obtain ⟨hf, hp⟩ := wakeAll_files _ hside (k1.waitqs (e.other.waitq q)).length k1
    obtain ⟨h1, h2, h3⟩ := hdrop _ hf hp
    refine ⟨h1, h2, h3.trans ?_⟩
    rw [wakeAll_waitqs, List.drop_length]
  · exact hdrop k1 rfl rfl

theorem pipeRelease_ok (hq : k.pipes.get q = some Q) (hm : flags &&& oAccmode = e.mode)
    (hpos : 0 < Q.ends e) : ∃ k', k.pipeRelease q flags = .ok k' ∧ k'.files = k.files
      ∧ k'.pipes = closePipe k.pipes q (Q.close e)
      ∧ k'.waitqs = closeQueues k.waitqs q (Q.close e) e := by
  unfold pipeRelease
  rw [hq]
  simp only
  cases e with
  | reading =>
    have hm : flags &&& oAccmode = oRdonly := hm
    have hpos : Q.readers ≠ 0 := Nat.ne_of_gt hpos
    rw [if_pos hm, if_neg hpos]
    exact ⟨_, rfl, pipeClose_eq k q ⟨Q.readers - 1, Q.writers⟩ .reading⟩
  | writing =>
    have hm : flags &&& oAccmode = oWronly := hm
    have hpos : Q.writers ≠ 0 := Nat.ne_of_gt hpos
    rw [if_neg (by rw [hm]; decide), if_pos hm, if_neg hpos]
    exact ⟨_, rfl, pipeClose_eq k q ⟨Q.readers, Q.writers - 1⟩ .writing⟩

/-- The pipes after an end was closed: `Q` is gone, or has its new counts. -/
theorem closePipe_get
    (h : (closePipe pipes q Q).get q' = some Q') :
    (q' = q ∧ Q' = Q ∧ ¬ (Q.readers = 0 ∧ Q.writers = 0)) ∨ (q' ≠ q ∧ pipes.get q' = some Q') := by
  unfold closePipe at h
  split at h
  · by_cases hq : q' = q
    · rw [hq, Store.free_self] at h
      cases h
    · rw [Store.free_ne hq, Store.modify_ne hq] at h
      exact .inr ⟨hq, h⟩
  · rename_i hlast
    obtain ⟨Q₀, hQ₀, rfl⟩ := Store.get_modify h
    by_cases hq : q' = q
    · exact .inl ⟨hq, if_pos hq, hlast⟩
    · exact .inr ⟨hq, by rw [if_neg hq, hQ₀]⟩

theorem closePipe_isSome (h : pipes.get q' = some Q')
    (hq : q' = q → ¬ (Q.readers = 0 ∧ Q.writers = 0)) : ∃ Q', (closePipe pipes q Q).get q' = some Q' := by
  unfold closePipe
  by_cases hqq : q' = q
  · rw [if_neg (hq hqq), hqq, Store.modify_self, ← hqq, h]
    exact ⟨_, rfl⟩
  · split
    · exact ⟨Q', by rw [Store.free_ne hqq, Store.modify_ne hqq, h]⟩
    · exact ⟨Q', by rw [Store.modify_ne hqq, h]⟩

/-- What closing a file that is referred to does: to a file that is no end of a pipe, and to
the end of one. -/
theorem releaseFile_ok {F : File} (h : Counts k.files k.pipes (f ::ₘ R))
    (hF : k.files.get f = some F) : ∃ k', k.releaseFile f = .ok k' ∧ k'.files = dropFile k.files f F
      ∧ (((∀ q e, F.isEnd q e = false) ∧ k'.pipes = k.pipes ∧ k'.waitqs = k.waitqs)
        ∨ ∃ q₀ e₀ Q₀, (∀ q e, F.isEnd q e = decide (q = q₀ ∧ e = e₀)) ∧ k.pipes.get q₀ = some Q₀
          ∧ k'.pipes = closePipe k.pipes q₀ (Q₀.close e₀)
          ∧ k'.waitqs = closeQueues k.waitqs q₀ (Q₀.close e₀) e₀) := by
  have hpos : F.count ≠ 0 := Nat.ne_of_gt (h.count hF).2
  -- the file is dropped once the pipe has been released
  have hdrop : ∀ k1 : Kernel, k1.files = k.files.modify f (fun F => { F with count := F.count - 1 }) →
      ∃ k', (if F.count - 1 = 0 then Except.ok { k1 with files := k1.files.free f } else .ok k1)
        = (.ok k' : Except Halt Kernel) ∧ k'.files = dropFile k.files f F ∧ k'.pipes = k1.pipes
          ∧ k'.waitqs = k1.waitqs := by
    intro k1 hfiles
    unfold dropFile
    split
    · exact ⟨_, rfl, by rw [← hfiles], rfl, rfl⟩
    · exact ⟨_, rfl, hfiles, rfl, rfl⟩
  unfold releaseFile
  rw [hF]
  simp only
  rw [if_neg hpos]
  rcases h.kind hF with ⟨hno, hends⟩ | ⟨q₀, e₀, Q₀, ht, hm, hQ₀, hends⟩
  · have hkind : ∀ k1 : Kernel, k1.releaseType F.flags F.type = .ok k1 := by
      intro k1
      cases ht : F.type with
      | pipe q => exact absurd ht (hno q)
      | unused | tty | inode => rfl
    rw [hkind]
    obtain ⟨k', hk', hfiles, hpipes, hqueues⟩ := hdrop { k with
      files := k.files.modify f fun F => { F with count := F.count - 1 } } rfl
    exact ⟨k', hk', hfiles, .inl ⟨hends, hpipes, hqueues⟩⟩
  · have hpos₀ : 0 < Q₀.ends e₀ := by
      rw [h.ends hQ₀ e₀, countP_ends_cons hF, hends q₀ e₀]
      simp
    obtain ⟨k1, h1, hfiles, hpipes, hqueues⟩ := pipeRelease_ok (k := { k with
      files := k.files.modify f fun F => { F with count := F.count - 1 } })
      hQ₀ (show F.flags &&& oAccmode = e₀.mode from hm) hpos₀
    rw [ht]
    have h1 : releaseType { k with
      files := k.files.modify f fun F => { F with count := F.count - 1 } } F.flags (.pipe q₀) = .ok k1 := h1
    rw [h1]
    obtain ⟨k', hk', hfiles', hpipes', hqueues'⟩ := hdrop k1 hfiles
    exact ⟨k', hk', hfiles', .inr ⟨q₀, e₀, Q₀, hends, hQ₀, hpipes'.trans hpipes,
      hqueues'.trans hqueues⟩⟩

/-- **Closing a file** drops a reference to it. -/
theorem releaseFile_counts (h : Counts k.files k.pipes (f ::ₘ R)) :
    ∃ k', k.releaseFile f = .ok k' ∧ Counts k'.files k'.pipes R := by
  obtain ⟨F, hF⟩ := h.live (Multiset.mem_cons_self f R)
  obtain ⟨k', hk', hfiles, hcase⟩ := releaseFile_ok h hF
  obtain ⟨hfile, hlive⟩ := h.close_files hF hfiles
  refine ⟨k', hk', ?_⟩
  rcases hcase with ⟨hends, hpipes, _⟩ | ⟨q₀, e₀, Q₀, hends, hQ₀, hpipes, _⟩
  · rw [hpipes]
    refine h.recount hfile hlive (fun _ hG ht => (h.pipe hG ht).1)
      fun {q Q'} hq => ⟨fun e => ?_, h.used hq⟩
    rw [h.ends hq e, countP_ends_cons hF, hends q e]
    rfl
  · rw [hpipes]
    have hQ := h.ends_close hF hends hQ₀
    refine h.recount hfile hlive (fun {g G q} hg hG ht => ?_) fun {q Q'} hq => ?_
    · obtain ⟨⟨Q, hQ'⟩, e, he⟩ := h.pipe hG ht
      refine closePipe_isSome hQ' fun hqq => ?_
      have hgend : 0 < (Q₀.close e₀).ends e := by
        rw [hQ e, Multiset.countP_pos]
        refine ⟨g, hg, ?_⟩
        rw [endOf_eq hG, File.isEnd_iff, ht, hqq]
        exact ⟨rfl, he⟩
      exact Pipe.used_of_ends hgend
    · rcases closePipe_get hq with ⟨rfl, rfl, hused⟩ | ⟨hqq, hq⟩
      · refine ⟨hQ, ?_⟩
        by_cases hr : (Q₀.close e₀).readers = 0
        · exact ⟨.writing, Nat.pos_of_ne_zero fun hw => hused ⟨hr, hw⟩⟩
        · exact ⟨.reading, Nat.pos_of_ne_zero hr⟩
      · refine ⟨fun e => ?_, h.used hq⟩
        rw [h.ends hq e, countP_ends_cons hF, hends q e]
        simp [hqq]

/-! ## Sleepers are served -/

/-- **Closing strands no sleeper**: who sleeps at the other end is woken with the last. -/
theorem releaseFile_served (h : Counts k.files k.pipes (f ::ₘ R)) (hs : k.Served)
    (hr : k.releaseFile f = .ok k') : k'.Served := by
  obtain ⟨F, hF⟩ := h.live (Multiset.mem_cons_self f R)
  obtain ⟨k1, hk1, _, hcase⟩ := releaseFile_ok h hF
  rw [hk1] at hr
  cases hr
  rcases hcase with ⟨_, hpipes, hqueues⟩ | ⟨q₀, e₀, Q₀, _, hQ₀, hpipes, hqueues⟩
  · exact hs.mono (fun q => by rw [hqueues]; exact fun _ h => h)
      fun hQ => ⟨_, hpipes ▸ hQ, fun _ => Nat.le_refl _⟩
  intro p q e hmem
  rw [hqueues] at hmem
  rw [hpipes]
  have hold : p ∈ k.waitqs (e.waitq q) ∧ (e.waitq q = e₀.other.waitq q₀ → (Q₀.close e₀).ends e₀ ≠ 0) := by
    unfold closeQueues at hmem
    split at hmem
    · by_cases hside : e.waitq q = e₀.other.waitq q₀
      · rw [hside, Function.update_self] at hmem
        cases hmem
      · rw [Function.update_of_ne hside] at hmem
        exact ⟨hmem, fun h => absurd h hside⟩
    · exact ⟨hmem, fun _ => ‹_›⟩
  obtain ⟨Q, hQ, hpos⟩ := hs p q e hold.1
  by_cases hq : q = q₀
  · subst hq
    rw [hQ₀] at hQ
    cases hQ
    have hleft : 0 < (Q₀.close e₀).ends e.other := by
      rw [Pipe.ends_close]
      split
      · rename_i he
        have hside : e.waitq q = e₀.other.waitq q := by
          rw [← he]
          cases e <;> rfl
        have := hold.2 hside
        rw [Pipe.ends_close, if_pos rfl, ← he] at this
        exact Nat.pos_of_ne_zero this
      · exact hpos
    refine ⟨Q₀.close e₀, ?_, hleft⟩
    unfold closePipe
    rw [if_neg (Pipe.used_of_ends hleft), Store.modify_self, hQ₀]
    rfl
  · refine ⟨Q, ?_, hpos⟩
    unfold closePipe
    split
    · rw [Store.free_ne hq, Store.modify_ne hq, hQ]
    · rw [Store.modify_ne hq, hQ]

theorem releaseFile_kept (h : Counts k.files k.pipes (f ::ₘ R)) (hr : k.releaseFile f = .ok k') :
    Kept k.files k'.files := by
  obtain ⟨F, hF⟩ := h.live (Multiset.mem_cons_self f R)
  obtain ⟨k1, hk1, hfiles, _⟩ := releaseFile_ok h hF
  rw [hk1] at hr
  cases hr
  rw [hfiles]
  exact .dropFile _ f F

end Kernel

end Cyanurus
