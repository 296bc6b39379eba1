import Mathlib.Data.List.Range
import Mathlib.Logic.Function.Basic
/-!
# Packed — a table kept in the first cells of an array

The table is the first `n` cells of an array.  A store inside it replaces one element, a store right behind it appends, and
moving the later cells down by one removes an element without disturbing the order of the others.
-/
namespace Pico
namespace Lib
namespace Packed

variable {α : Type} {f : Nat → α} {n : Nat}

/-- The cells in use. -/
def content (f : Nat → α) (n : Nat) : List α := (List.range n).map f

/-- `m` cells from `k + 1` on move down by one. -/
def shiftDown (f : Nat → α) (k : Nat) : Nat → Nat → α
  | 0 => f
  | m + 1 => shiftDown (Function.update f k (f (k + 1))) (k + 1) m

@[simp] theorem length_content : (content f n).length = n := by simp [content]

theorem getElem?_content {i : Nat} (hi : i < n) : (content f n)[i]? = some (f i) := by
  simp [content, List.getElem?_map, List.getElem?_range hi]

theorem content_congr {g : Nat → α} (h : ∀ i < n, g i = f i) : content g n = content f n :=
  List.map_congr_left fun i hi => h i (List.mem_range.1 hi)

theorem content_succ : content f (n + 1) = content f n ++ [f n] := by
  simp [content, List.range_succ]

theorem content_update {i : Nat} (a : α) : content (Function.update f i a) n = (content f n).set i a := by
  apply List.ext_getElem?
  intro j
  rw [List.getElem?_set]
  by_cases hj : j < n
  · rw [getElem?_content hj, getElem?_content hj, length_content]
    by_cases hij : i = j
    · subst hij
      simp [hj]
    · rw [Function.update_of_ne (Ne.symm hij), if_neg hij]
  · have hout : ∀ g : Nat → α, (content g n)[j]? = none := fun g =>
      List.getElem?_eq_none (by rw [length_content]; omega)
    rw [hout, hout, length_content]
    by_cases hij : i = j
    · rw [if_pos hij, if_neg (by omega)]
    · rw [if_neg hij]

theorem content_push (a : α) : content (Function.update f n a) (n + 1) = content f n ++ [a] := by
  rw [content_succ, Function.update_self]
  congr 1
  exact content_congr fun i hi => Function.update_of_ne (Nat.ne_of_lt hi) a f

theorem shiftDown_apply : ∀ (m k : Nat) (f : Nat → α) (i : Nat),
    shiftDown f k m i = if k ≤ i ∧ i < k + m then f (i + 1) else f i
  | 0, k, f, i => by
    rw [if_neg (by omega)]
    rfl
  | m + 1, k, f, i => by
    rw [shiftDown, shiftDown_apply m (k + 1)]
    by_cases hik : i = k
    · subst hik
      rw [if_neg (by omega), if_pos (by omega), Function.update_self]
    · have hup : ∀ j, k < j → Function.update f k (f (k + 1)) j = f j := fun j hj =>
        Function.update_of_ne (Nat.ne_of_gt hj) _ _
      by_cases hin : k + 1 ≤ i ∧ i < k + 1 + m
      · rw [if_pos hin, if_pos (by omega), hup _ (by omega)]
      · rw [if_neg hin, if_neg (by omega), Function.update_of_ne hik]

/-- **Moving the cells behind `k` down removes the element at `k`.** -/
theorem content_shiftDown {k : Nat} (hk : k < n) :
    content (shiftDown f k (n - 1 - k)) (n - 1) = (content f n).eraseIdx k := by
  apply List.ext_getElem?
  intro j
  rw [List.getElem?_eraseIdx]
  by_cases hj : j < n - 1
  · rw [getElem?_content hj, shiftDown_apply]
    by_cases hjk : j < k
    · rw [if_neg (by omega), if_pos hjk, getElem?_content (by omega)]
    · rw [if_pos (by omega), if_neg hjk, getElem?_content (by omega)]
  · rw [List.getElem?_eq_none (by rw [length_content]; omega)]
    symm
    split <;> exact List.getElem?_eq_none (by rw [length_content]; omega)

end Packed
end Lib
end Pico
