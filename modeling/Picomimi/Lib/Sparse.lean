import Mathlib.Data.List.Basic
/-!
# Sparse — an array written at offsets

The writes are kept, the newest first.  An index holds what the newest write over it put there and a default value when
there is none (`lastWritten`), the array is as long as its furthest write (`extent`), and a read is cut at its end
(`readBack`).
-/
namespace Pico
namespace Lib

/-- The elements of `buf`, put from `pos` on. -/
structure Patch (α : Type) where
  pos : Nat
  buf : List α
deriving DecidableEq

variable {α : Type} {z : α} {w : Patch α} {ws : List (Patch α)} {k n o : Nat}

/-- One past the last index. -/
def Patch.fin (w : Patch α) : Nat := w.pos + w.buf.length

/-- What the newest write over `k` put there. -/
def lastWritten (z : α) : List (Patch α) → Nat → α
  | [], _ => z
  | w :: ws, k => if w.pos ≤ k ∧ k < w.fin then w.buf.getD (k - w.pos) z else lastWritten z ws k

def extent : List (Patch α) → Nat
  | [] => 0
  | w :: ws => max (extent ws) w.fin

/-- The `n` elements from `o` on that are inside the array. -/
def readBack (z : α) (ws : List (Patch α)) (o n : Nat) : List α :=
  (List.range (min n (extent ws - o))).map fun k => lastWritten z ws (o + k)

theorem lastWritten_of_mem (h1 : w.pos ≤ k) (h2 : k < w.fin) :
    lastWritten z (w :: ws) k = w.buf.getD (k - w.pos) z := if_pos ⟨h1, h2⟩

theorem lastWritten_of_apart (h : k < w.pos ∨ w.fin ≤ k) : lastWritten z (w :: ws) k = lastWritten z ws k :=
  if_neg (by omega)

/-- **Nothing was written past the end.** -/
theorem lastWritten_of_extent_le : ∀ {ws : List (Patch α)}, extent ws ≤ k → lastWritten z ws k = z
  | [], _ => rfl
  | w :: ws, h => by
    have hmax : extent ws ≤ k ∧ w.fin ≤ k := Nat.max_le.1 h
    rw [lastWritten_of_apart (.inr hmax.2), lastWritten_of_extent_le hmax.1]

@[simp] theorem readBack_length : (readBack z ws o n).length = min n (extent ws - o) := by simp [readBack]

theorem readBack_of_extent_le (h : extent ws ≤ o) : readBack z ws o n = [] := by
  rw [readBack, Nat.sub_eq_zero_of_le h, Nat.min_zero]
  rfl

/-! ## Writes inside the array -/

variable {l v w : List α} {pos : Nat}

/-- The elements of `w` in place of those of `l` from `pos` on, which is at most its end. -/
def overwrite (l : List α) (pos : Nat) (w : List α) : List α := l.take pos ++ w ++ l.drop (pos + w.length)

theorem overwrite_nil (l : List α) (pos : Nat) : overwrite l pos [] = l := by
  rw [overwrite, List.append_nil, List.length_nil, Nat.add_zero, List.take_append_drop]

/-- **At the end it is an append.** -/
theorem overwrite_end (l w : List α) : overwrite l l.length w = l ++ w := by
  rw [overwrite, List.take_length, List.drop_eq_nil_of_le (Nat.le_add_right _ _), List.append_nil]

/-- **One write behind the other is one write.** -/
theorem overwrite_overwrite (h : pos ≤ l.length) :
    overwrite (overwrite l pos v) (pos + v.length) w = overwrite l pos (v ++ w) := by
  have hlen : (l.take pos ++ v).length = pos + v.length := by
    rw [List.length_append, List.length_take, Nat.min_eq_left h]
  have hdrop : (overwrite l pos v).drop (pos + v.length + w.length) = l.drop (pos + (v ++ w).length) := by
    rw [overwrite, ← hlen, List.drop_length_add_append, List.drop_drop, hlen, List.length_append, Nat.add_assoc]
  have htake : (overwrite l pos v).take (pos + v.length) = l.take pos ++ v := by
    rw [overwrite, ← hlen, List.take_left]
  rw [overwrite, htake, hdrop, overwrite]
  simp only [List.append_assoc]

end Lib
end Pico
