import Mathlib.Algebra.Group.Nat.Defs
import Mathlib.Tactic.Common
/-!
# ByteView — reading a memory of bytes

A memory is a byte, or none, for every address.  What a list of bytes at an address says is read back from it: a number
(`readLe_of_bytesAt`), a string up to its 0 (`readStr_of_bytesAt`), the words up to the first 0 (`readVec_of_words`).
-/
namespace Pico
namespace Lib

/-- The bytes of `l` are the memory's from `a` on. -/
def BytesAt (m : Nat → Option Nat) (a : Nat) (l : List UInt8) : Prop :=
  ∀ i, i < l.length → m (a + i) = (l[i]?).map UInt8.toNat

/-- The number the bytes write, the lowest first. -/
def leValue (l : List UInt8) : Nat := l.foldr (fun b v => b.toNat + 256 * v) 0

/-- `n` bytes that write a number, the lowest first. -/
def leBytes : Nat → Nat → List UInt8
  | 0, _ => []
  | n + 1, v => UInt8.ofNat v :: leBytes n (v / 256)

theorem leBytes_length : ∀ (n v : Nat), (leBytes n v).length = n
  | 0, _ => rfl
  | n + 1, v => congrArg (· + 1) (leBytes_length n (v / 256))

/-- **A number of `n` bytes is read back.** -/
theorem leValue_leBytes : ∀ n v : Nat, leValue (leBytes n v) = v % 256 ^ n
  | 0, v => by rw [Nat.pow_zero, Nat.mod_one]; rfl
  | n + 1, v => by
    have ih := leValue_leBytes n (v / 256)
    have hb : (UInt8.ofNat v).toNat = v % 256 := rfl
    have hcons : leValue (leBytes (n + 1) v) = (UInt8.ofNat v).toNat + 256 * leValue (leBytes n (v / 256)) := rfl
    rw [hcons, ih, hb, Nat.pow_succ, Nat.mul_comm (256 ^ n), Nat.mod_mul]

/-- The number in `n` bytes. -/
def readLe (m : Nat → Option Nat) : Nat → Nat → Option Nat
  | 0, _ => some 0
  | n + 1, a => do
    let b ← m a
    let v ← readLe m n (a + 1)
    some (b + 256 * v)

/-- The bytes of a string before its 0. -/
def readStr (m : Nat → Option Nat) : Nat → Nat → Option (List Nat)
  | 0, _ => none
  | fuel + 1, a => do
    let b ← m a
    if b = 0 then some []
    else
      let l ← readStr m fuel (a + 1)
      some (b :: l)

/-- The words before the first 0, and the address after it. -/
def readVec (m : Nat → Option Nat) : Nat → Nat → Option (List Nat × Nat)
  | 0, _ => none
  | fuel + 1, a => do
    let w ← readLe m 8 a
    if w = 0 then some ([], a + 8)
    else
      let (l, e) ← readVec m fuel (a + 8)
      some (w :: l, e)

/-- Pairs of words, before the first whose first word is 0. -/
def readPairs (m : Nat → Option Nat) : Nat → Nat → Option (List (Nat × Nat))
  | 0, _ => none
  | fuel + 1, a => do
    let w ← readLe m 8 a
    let v ← readLe m 8 (a + 8)
    if w = 0 then some []
    else
      let l ← readPairs m fuel (a + 16)
      some ((w, v) :: l)

variable {m : Nat → Option Nat} {a fuel : Nat} {l l' : List UInt8}

theorem BytesAt.nil : BytesAt m a [] := fun _ hi => absurd hi (Nat.not_lt_zero _)

theorem bytesAt_append : BytesAt m a (l ++ l') ↔ BytesAt m a l ∧ BytesAt m (a + l.length) l' := by
  constructor
  · intro h
    constructor
    · intro i hi
      rw [h i (by rw [List.length_append]; omega), List.getElem?_append_left hi]
    · intro i hi
      rw [Nat.add_assoc, h (l.length + i) (by rw [List.length_append]; omega),
        List.getElem?_append_right (Nat.le_add_right _ _), Nat.add_sub_cancel_left]
  · rintro ⟨h1, h2⟩ i hi
    by_cases hl : i < l.length
    · rw [h1 i hl, List.getElem?_append_left hl]
    · rw [List.length_append] at hi
      have hle : l.length ≤ i := Nat.le_of_not_lt hl
      have hsum : a + i = a + l.length + (i - l.length) := by omega
      rw [hsum, h2 _ (by omega), List.getElem?_append_right hle]

theorem bytesAt_cons {b : UInt8} : BytesAt m a (b :: l) ↔ m a = some b.toNat ∧ BytesAt m (a + 1) l := by
  rw [← List.singleton_append, bytesAt_append]
  refine and_congr_left fun _ => ⟨fun h => h 0 Nat.one_pos, fun h i hi => ?_⟩
  have h0 : i = 0 := Nat.lt_one_iff.1 hi
  subst h0
  exact h

/-- **A number is read back.** -/
theorem readLe_of_bytesAt : ∀ {l : List UInt8} {a : Nat}, BytesAt m a l → readLe m l.length a = some (leValue l)
  | [], _, _ => rfl
  | b :: l, a, h => by
    obtain ⟨hb, hl⟩ := bytesAt_cons.1 h
    have ih := readLe_of_bytesAt hl
    rw [List.length_cons, readLe, hb, ih]
    rfl

/-- **A string is read back**: it has no 0 but the last. -/
theorem readStr_of_bytesAt : ∀ {l : List UInt8} {fuel a : Nat}, BytesAt m a (l ++ [0]) → 0 ∉ l → l.length < fuel →
    readStr m fuel a = some (l.map UInt8.toNat)
  | _, 0, _, _, _, hf => absurd hf (Nat.not_lt_zero _)
  | [], fuel + 1, a, h, _, _ => by
    have h0 := (bytesAt_cons.1 h).1
    rw [readStr, h0]
    rfl
  | b :: l, fuel + 1, a, h, hn, hf => by
    rw [List.cons_append] at h
    obtain ⟨hb, hl⟩ := bytesAt_cons.1 h
    have hne : b.toNat ≠ 0 := by
      intro hc
      refine hn (List.mem_cons.2 (.inl ?_))
      exact (UInt8.toNat_inj.1 (by rw [hc]; rfl))
    have ih := readStr_of_bytesAt hl (fun hc => hn (List.mem_cons_of_mem b hc)) (Nat.lt_of_succ_lt_succ hf)
    rw [readStr, hb]
    show (if b.toNat = 0 then some [] else _) = _
    rw [if_neg hne, ih]
    rfl

/-- Words one after another. -/
def WordsAt (m : Nat → Option Nat) : Nat → List Nat → Prop
  | _, [] => True
  | a, w :: l => readLe m 8 a = some w ∧ WordsAt m (a + 8) l

theorem wordsAt_append : ∀ {ws ws' : List Nat} {a : Nat}, WordsAt m a (ws ++ ws') ↔ WordsAt m a ws ∧
    WordsAt m (a + 8 * ws.length) ws'
  | [], ws', a => by
    rw [List.nil_append, List.length_nil, Nat.mul_zero, Nat.add_zero]
    exact (and_iff_right trivial).symm
  | w :: ws, ws', a => by
    have hsum : a + 8 * (w :: ws).length = a + 8 + 8 * ws.length := by
      rw [List.length_cons]
      omega
    rw [List.cons_append, WordsAt, WordsAt, wordsAt_append, hsum, and_assoc]

/-- **The words up to the first 0** are read back, if none before it is 0. -/
theorem readVec_of_words : ∀ {ws : List Nat} {fuel a : Nat}, WordsAt m a (ws ++ [0]) → 0 ∉ ws → ws.length < fuel →
    readVec m fuel a = some (ws, a + 8 * (ws.length + 1))
  | _, 0, _, _, _, hf => absurd hf (Nat.not_lt_zero _)
  | [], fuel + 1, a, h, _, _ => by
    rw [readVec, h.1]
    rfl
  | w :: ws, fuel + 1, a, h, hn, hf => by
    obtain ⟨hw, hws⟩ := h
    have hne : w ≠ 0 := fun hc => hn (List.mem_cons.2 (.inl hc.symm))
    have ih := readVec_of_words hws (fun hc => hn (List.mem_cons_of_mem w hc)) (Nat.lt_of_succ_lt_succ hf)
    have hend : a + 8 + 8 * (ws.length + 1) = a + 8 * ((w :: ws).length + 1) := by
      rw [List.length_cons]
      omega
    rw [hend] at ih
    rw [readVec, hw]
    show (if w = 0 then some ([], a + 8) else _) = _
    rw [if_neg hne, ih]
    rfl

/-- **The pairs up to the first that begins with 0** are read back. -/
theorem readPairs_of_words {e : Nat} : ∀ {ps : List (Nat × Nat)} {fuel a : Nat},
    WordsAt m a (ps.flatMap (fun p => [p.1, p.2]) ++ [0, e]) → (∀ p ∈ ps, p.1 ≠ 0) → ps.length < fuel →
    readPairs m fuel a = some ps
  | _, 0, _, _, _, hf => absurd hf (Nat.not_lt_zero _)
  | [], fuel + 1, a, h, _, _ => by
    rw [readPairs, h.1]
    show (readLe m 8 (a + 8)).bind _ = _
    rw [h.2.1]
    rfl
  | (w, v) :: ps, fuel + 1, a, h, hn, hf => by
    obtain ⟨hw, hv, hps⟩ := h
    have ih := readPairs_of_words hps (fun p hp => hn p (List.mem_cons_of_mem _ hp)) (Nat.lt_of_succ_lt_succ hf)
    rw [readPairs, hw]
    show (readLe m 8 (a + 8)).bind _ = _
    rw [hv]
    show (if w = 0 then some [] else _) = _
    rw [if_neg (hn (w, v) List.mem_cons_self)]
    have hsum : a + 8 + 8 = a + 16 := rfl
    rw [hsum] at ih
    rw [ih]
    rfl

end Lib
end Pico
