import Mathlib.Algebra.Group.Nat.Defs
import Mathlib.Logic.Function.Basic
import Mathlib.Tactic.Common
import Picomimi.Lib.Word
/-!
# WordBytes — the bytes of a memory of 64-bit words

The memory is a word for every multiple of 8.  Byte `a` is one of the eight of the word it is in; to store it is to replace
it in that word.  A byte stored is read at its address and nowhere else (`byteAt_storeByte`), and so are the bytes of a list
stored one after another (`byteAt_storeBytes`).
-/
namespace Pico
namespace Lib

/-- Byte `k` of a word, the lowest first. -/
def byteOf (w k : Nat) : Nat := w / 256 ^ k % 256

def setByte (w k b : Nat) : Nat := (w / 256 ^ (k + 1) * 256 + b) * 256 ^ k + w % 256 ^ k

def byteAt (mem : Nat → Nat) (a : Nat) : Nat := byteOf (mem (alignDown a 8)) (a % 8)

def storeByte (mem : Nat → Nat) (a b : Nat) : Nat → Nat :=
  Function.update mem (alignDown a 8) (setByte (mem (alignDown a 8)) (a % 8) b)

/-- `memcpy` of a list of bytes. -/
def storeBytes (mem : Nat → Nat) (a : Nat) : List UInt8 → Nat → Nat
  | [] => mem
  | b :: l => storeBytes (storeByte mem a b.toNat) (a + 1) l

variable {mem mem' : Nat → Nat} {w k j a b x : Nat}

/-- A byte depends on the bits up to its own. -/
theorem byteOf_congr {v : Nat} (h : v % 256 ^ (j + 1) = w % 256 ^ (j + 1)) : byteOf v j = byteOf w j := by
  unfold byteOf
  rw [← Nat.mod_mul_right_div_self, ← Nat.mod_mul_right_div_self, ← Nat.pow_succ, h]

theorem byteOf_zero (k : Nat) : byteOf 0 k = 0 := by rw [byteOf, Nat.zero_div]

theorem byteOf_setByte (hb : b < 256) : byteOf (setByte w k b) j = if j = k then b else byteOf w j := by
  have hpos : 0 < 256 ^ k := Nat.pow_pos (by decide)
  have hr : w % 256 ^ k < 256 ^ k := Nat.mod_lt _ hpos
  have hdiv : setByte w k b / 256 ^ k = w / 256 ^ (k + 1) * 256 + b := by
    rw [setByte, Nat.mul_comm, Nat.mul_add_div hpos, Nat.div_eq_of_lt hr, Nat.add_zero]
  rcases Nat.lt_trichotomy j k with hlt | rfl | hlt
  · rw [if_neg (Nat.ne_of_lt hlt)]
    apply byteOf_congr
    obtain ⟨d, hd⟩ : 256 ^ (j + 1) ∣ 256 ^ k := Nat.pow_dvd_pow 256 hlt
    rw [setByte, hd, Nat.mul_left_comm, Nat.mul_add_mod, Nat.mod_mul_right_mod]
  · rw [if_pos rfl, byteOf, hdiv]
    omega
  · rw [if_neg (Nat.ne_of_gt hlt)]
    obtain ⟨d, rfl⟩ : ∃ d, j = k + 1 + d := ⟨j - (k + 1), by omega⟩
    have hq : setByte w k b / 256 ^ (k + 1) = w / 256 ^ (k + 1) := by
      rw [Nat.pow_succ, ← Nat.div_div_eq_div_mul, hdiv, Nat.pow_succ]
      omega
    unfold byteOf
    rw [Nat.pow_add, ← Nat.div_div_eq_div_mul, ← Nat.div_div_eq_div_mul, hq]

theorem alignDown_add_mod (a n : Nat) : alignDown a n + a % n = a := by
  rw [alignDown, Nat.mul_comm]
  exact Nat.div_add_mod a n

theorem byteAt_congr (h : mem' (alignDown a 8) = mem (alignDown a 8)) : byteAt mem' a = byteAt mem a := by
  rw [byteAt, byteAt, h]

theorem byteAt_storeByte (hb : b < 256) : byteAt (storeByte mem a b) x = if x = a then b else byteAt mem x := by
  unfold byteAt storeByte
  by_cases hw : alignDown x 8 = alignDown a 8
  · have hx := alignDown_add_mod x 8
    have ha := alignDown_add_mod a 8
    rw [hw, Function.update_self, byteOf_setByte hb]
    congr 1
    apply propext
    omega
  · rw [Function.update_of_ne hw, if_neg]
    rintro rfl
    exact hw rfl

theorem byteAt_storeBytes : ∀ {l : List UInt8} {mem : Nat → Nat} {a : Nat},
    byteAt (storeBytes mem a l) x = if a ≤ x then ((l[x - a]?).map UInt8.toNat).getD (byteAt mem x) else byteAt mem x
  | [], mem, a => by
    rw [storeBytes, List.getElem?_nil, Option.map_none, Option.getD_none, ite_self]
  | b :: l, mem, a => by
    rw [storeBytes, byteAt_storeBytes, byteAt_storeByte b.toNat_lt]
    rcases Nat.lt_trichotomy x a with hlt | rfl | hlt
    · rw [if_neg (by omega), if_neg (by omega), if_neg (by omega)]
    · rw [if_neg (by omega), if_pos rfl, if_pos (Nat.le_refl _), Nat.sub_self, List.getElem?_cons_zero, Option.map_some,
        Option.getD_some]
    · have hs : x - a = x - (a + 1) + 1 := by omega
      rw [if_pos (by omega), if_neg (by omega), if_pos (Nat.le_of_lt hlt), hs, List.getElem?_cons_succ]

/-- The words with no byte of the list in them. -/
theorem storeBytes_of_apart : ∀ {l : List UInt8} {mem : Nat → Nat} {a : Nat},
    (∀ i, i < l.length → alignDown (a + i) 8 ≠ w) → storeBytes mem a l w = mem w
  | [], _, _, _ => rfl
  | b :: l, mem, a, h => by
    have h0 := h 0 (Nat.succ_pos _)
    rw [storeBytes, storeBytes_of_apart]
    · exact Function.update_of_ne (Ne.symm h0) _ _
    · intro i hi
      rw [Nat.add_right_comm]
      exact h (i + 1) (Nat.succ_lt_succ hi)

end Lib
end Pico
