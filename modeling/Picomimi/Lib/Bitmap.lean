import Mathlib.Data.Finset.Card
import Mathlib.Data.Finset.Range
import Mathlib.Logic.Function.Basic
/-!
# Bitmap — words of bits, searched for the lowest set one

Bit `b` of word `i` is bit `i * width + b`.  `firstSet` looks word by word and then within the word, `clearRun` clears a
run of bits and stops at the end; `setBits` is the set they read and change.
-/
namespace Pico
namespace Lib

/-- The lowest set bit, of the first word that has one. -/
@[irreducible] def firstSet (bits : Nat → Bool) (words width : Nat) : Option Nat :=
  (List.range words).findSome? fun i => ((List.range width).find? fun b => bits (i * width + b)).map (i * width + ·)

/-- Clear `n` bits from `i` on; the ones below `size`. -/
def clearRun (size : Nat) (bits : Nat → Bool) : Nat → Nat → (Nat → Bool)
  | 0, _ => bits
  | n + 1, i => if i < size then clearRun size (Function.update bits i false) n (i + 1) else bits

/-- The set bits below `n`. -/
def setBits (bits : Nat → Bool) (n : Nat) : Finset Nat := (Finset.range n).filter fun i => bits i = true

variable {bits : Nat → Bool} {words width n size i p : Nat}

theorem mem_setBits : p ∈ setBits bits n ↔ p < n ∧ bits p = true := by simp [setBits]

theorem firstSet_some (h : firstSet bits words width = some p) : p < words * width ∧ bits p = true := by
  unfold firstSet at h
  obtain ⟨i, hi, hp⟩ := List.exists_of_findSome?_eq_some h
  obtain ⟨b, hb, rfl⟩ := Option.map_eq_some_iff.1 hp
  have hlt := List.mem_range.1 (List.mem_of_find?_eq_some hb)
  have hi := List.mem_range.1 hi
  have hset := List.find?_some hb
  refine ⟨?_, hset⟩
  calc i * width + b
    _ < i * width + width := Nat.add_lt_add_left hlt _
    _ = (i + 1) * width := (Nat.succ_mul i width).symm
    _ ≤ words * width := Nat.mul_le_mul_right width hi

theorem firstSet_none (h : firstSet bits words width = none) (hp : p < words * width) : bits p = false := by
  have hw : 0 < width := by
    by_contra hc
    rw [Nat.eq_zero_of_not_pos hc, Nat.mul_zero] at hp
    omega
  unfold firstSet at h
  have hi : p / width < words := (Nat.div_lt_iff_lt_mul hw).2 hp
  have hword := List.findSome?_eq_none_iff.1 h (p / width) (List.mem_range.2 hi)
  rw [Option.map_eq_none_iff] at hword
  have hbit := List.find?_eq_none.1 hword (p % width) (List.mem_range.2 (Nat.mod_lt p hw))
  rw [Nat.mul_comm, Nat.div_add_mod] at hbit
  simpa using hbit

/-- **A run clears its bits**, as far as there are any. -/
theorem clearRun_apply (size : Nat) : ∀ (n i : Nat) (bits : Nat → Bool) (p : Nat),
    clearRun size bits n i p = (bits p && !decide (i ≤ p ∧ p < i + n ∧ p < size))
  | 0, i, bits, p => by
    rw [clearRun, decide_eq_false (by omega), Bool.not_false, Bool.and_true]
  | n + 1, i, bits, p => by
    unfold clearRun
    by_cases hi : i < size
    · rw [if_pos hi, clearRun_apply size n (i + 1), Function.update_apply]
      by_cases hp : p = i
      · have : i ≤ p ∧ p < i + (n + 1) ∧ p < size := by omega
        simp [hp, hi]
      · have : (i + 1 ≤ p ∧ p < i + 1 + n ∧ p < size) ↔ (i ≤ p ∧ p < i + (n + 1) ∧ p < size) := by omega
        rw [if_neg hp, decide_eq_decide.2 this]
    · rw [if_neg hi, decide_eq_false (by omega), Bool.not_false, Bool.and_true]

theorem setBits_clear : setBits (Function.update bits i false) n = (setBits bits n).erase i := by
  ext p
  by_cases hp : p = i <;> simp [mem_setBits, hp]

theorem setBits_set (hi : i < n) : setBits (Function.update bits i true) n = insert i (setBits bits n) := by
  ext p
  by_cases hp : p = i <;> simp [mem_setBits, hp, hi]

/-- **Clearing a set bit** leaves one set bit fewer. -/
theorem card_clear (hi : i < n) (hb : bits i = true) :
    (setBits (Function.update bits i false) n).card + 1 = (setBits bits n).card := by
  rw [setBits_clear]
  exact Finset.card_erase_add_one (mem_setBits.2 ⟨hi, hb⟩)

theorem card_set (hi : i < n) (hb : bits i = false) :
    (setBits (Function.update bits i true) n).card = (setBits bits n).card + 1 := by
  rw [setBits_set hi]
  apply Finset.card_insert_of_notMem
  simp [mem_setBits, hb]

theorem card_setBits_le (bits : Nat → Bool) (n : Nat) : (setBits bits n).card ≤ n := by
  refine (Finset.card_filter_le _ _).trans ?_
  rw [Finset.card_range]

end Lib
end Pico
