import Cyanurus.Lib.Bytes

/-!
# Sequences of writes

A program that builds something in memory is described by the list of what it writes, in
order. If no two of the writes overlap, then in the end every one of them can be read where
it was written (`writes_holds`), and nothing else has changed (`writes_agree`).
-/

namespace Bytes

/-- Put a list of bytes at `a`. -/
def put (m : Bytes) (a : Nat) (bs : List UInt8) : Bytes :=
  m.copy a (fun x => bs.getD x 0) 0 bs.length

/-- The low `n` bytes of a number, the lowest first. -/
def word : Nat → Nat → List UInt8
  | 0, _ => []
  | n + 1, v => UInt8.ofNat v :: word n (v / 256)

/-- The memory after the writes, each an address with the bytes that go there. -/
def writes (m : Bytes) (ws : List (Nat × List UInt8)) : Bytes :=
  ws.foldl (fun m w => m.put w.1 w.2) m

/-- The bytes are at `a`. -/
def Holds (m : Bytes) (a : Nat) (bs : List UInt8) : Prop := ∀ i b, bs[i]? = some b → m (a + i) = b

/-- Two writes do not overlap. -/
def Separate (w w' : Nat × List UInt8) : Prop := Apart w.1 w.2.length w'.1 w'.2.length

/-- The write is in `[lo, hi)`. -/
def Within (lo hi : Nat) (w : Nat × List UInt8) : Prop := lo ≤ w.1 ∧ w.1 + w.2.length ≤ hi

variable {m m' : Bytes} {a b n k v : Nat} {bs cs : List UInt8} {w w' : Nat × List UInt8}
  {ws : List (Nat × List UInt8)}

@[simp] theorem length_word : ∀ n v, (word n v).length = n
  | 0, _ => rfl
  | n + 1, v => by rw [word, List.length_cons, length_word n]

theorem put_agree (m : Bytes) (h : Apart a bs.length b n) : Agree m (m.put a bs) b n :=
  copy_agree m _ 0 h

theorem put_holds (m : Bytes) (a : Nat) (bs : List UInt8) : Holds (m.put a bs) a bs := by
  intro i b hi
  have hlt : i < bs.length := (List.getElem?_eq_some_iff.mp hi).1
  unfold put
  rw [copy_in _ _ hlt, Nat.zero_add, List.getD_eq_getElem?_getD, hi]
  rfl

theorem Holds.keep (h : Holds m a bs) (hm : Agree m m' a bs.length) : Holds m' a bs := by
  intro i b hi
  have hlt : i < bs.length := (List.getElem?_eq_some_iff.mp hi).1
  rw [hm (a + i) (by omega) (by omega)]
  exact h i b hi

theorem Holds.tail {c : UInt8} (h : Holds m a (c :: bs)) : Holds m (a + 1) bs := by
  intro i b hi
  rw [show a + 1 + i = a + (i + 1) by omega]
  exact h (i + 1) b (by simpa using hi)

/-- A word that is held is the number that is loaded. -/
theorem Holds.load : ∀ {n a v : Nat}, Holds m a (word n v) → m.load n a = v % 256 ^ n
  | 0, _, v, _ => by simp [Bytes.load, Nat.mod_one]
  | n + 1, a, v, h => by
    have hhead : m a = UInt8.ofNat v := h 0 _ rfl
    rw [Bytes.load, hhead, Holds.load h.tail, Nat.pow_succ', Nat.mod_mul]
    simp [UInt8.toNat_ofNat']

theorem Separate.symm (h : Separate w w') : Separate w' w := Or.symm h

/-- Nothing else changes. -/
theorem writes_agree : ∀ {ws : List (Nat × List UInt8)} (m : Bytes),
    (∀ w ∈ ws, Apart w.1 w.2.length b n) → Agree m (m.writes ws) b n
  | [], m, _ => Agree.refl m b n
  | w :: ws, m, h =>
    (put_agree m (h w (by simp))).trans (writes_agree (m.put w.1 w.2) fun w' hw' => h w' (by simp [hw']))

/-- What holds apart from the writes still holds. -/
theorem Holds.writes (h : Holds m a bs) (hap : ∀ w ∈ ws, Apart w.1 w.2.length a bs.length) :
    Holds (m.writes ws) a bs :=
  h.keep (writes_agree m hap)

/-- **Every write can be read again.** -/
theorem writes_holds : ∀ {ws : List (Nat × List UInt8)} (m : Bytes), ws.Pairwise Separate →
    ∀ w ∈ ws, Holds (m.writes ws) w.1 w.2
  | [], _, _, _, hw => absurd hw (by simp)
  | w₀ :: ws, m, hp, w, hw => by
    obtain ⟨hfirst, hrest⟩ := List.pairwise_cons.mp hp
    rcases List.mem_cons.mp hw with rfl | hw
    · exact (put_holds m w.1 w.2).writes fun w' hw' => (hfirst w' hw').symm
    · exact writes_holds (m.put w₀.1 w₀.2) hrest w hw

/-- Writes in ranges that do not meet do not overlap. -/
theorem Within.separate {lo hi lo' hi' : Nat} (h : Within lo hi w) (h' : Within lo' hi' w')
    (hap : hi ≤ lo' ∨ hi' ≤ lo) : Separate w w' := by
  unfold Within at h h'
  unfold Separate Apart
  omega

end Bytes
