import Mathlib.Data.Fintype.Basic
import Mathlib.Data.List.FinRange
import Mathlib.Logic.Function.Basic
/-!
# Levels — first-in-first-out queues at priority levels

`first` is the head of the lowest level that has a head.  `InOrder` says that every queue is in the order of a clock: then
a head has waited longer than whoever stands behind it, and joining at the tail and leaving from anywhere keep it so.
-/
namespace Pico
namespace Lib
namespace Levels

variable {n : Nat} {ι α : Type} {qs : Fin n → List α} {p : Fin n} {a b : α} {l : List α}

/-- `p` is the first level that is not empty. -/
def Lowest (qs : Fin n → List α) (p : Fin n) : Prop := qs p ≠ [] ∧ ∀ r, r < p → qs r = []

/-! ## The order of joining -/

/-- **Every queue is in the order in which its members joined.** -/
def InOrder (since : α → Nat) (qs : ι → List α) : Prop := ∀ i, (qs i).Pairwise fun a b => since a < since b

variable {since : α → Nat} {q : ι → List α} {i : ι} {now : Nat}

/-- **The head has waited longest.** -/
theorem InOrder.head_lt (h : InOrder since q) (hq : q i = a :: l) : ∀ b ∈ l, since a < since b := by
  have hi := h i
  rw [hq] at hi
  exact fun b hb => List.rel_of_pairwise_cons hi hb

variable [DecidableEq ι] [DecidableEq α]

/-- **One that is in no queue joins at the tail of one.** -/
theorem InOrder.join (h : InOrder since q) (hpast : ∀ j, ∀ b ∈ q j, since b < now) (hno : ∀ j, a ∉ q j) :
    InOrder (Function.update since a now) (Function.update q i (q i ++ [a])) := by
  have hold : ∀ j, ∀ b ∈ q j, Function.update since a now b = since b := by
    intro j b hb
    rw [Function.update_of_ne]
    rintro rfl
    exact hno j hb
  have hkept : ∀ j, (q j).Pairwise fun b c => Function.update since a now b < Function.update since a now c := by
    intro j
    refine (h j).imp_of_mem fun hb hc hlt => ?_
    rw [hold j _ hb, hold j _ hc]
    exact hlt
  intro j
  by_cases hj : j = i
  · subst hj
    rw [Function.update_self, List.pairwise_append]
    refine ⟨hkept j, List.pairwise_singleton _ _, fun b hb c hc => ?_⟩
    rw [List.mem_singleton.1 hc, hold j b hb, Function.update_self]
    exact hpast j b hb
  · rw [Function.update_of_ne hj]
    exact hkept j

theorem InOrder.leave (h : InOrder since q) : InOrder since (Function.update q i ((q i).erase a)) := by
  intro j
  by_cases hj : j = i
  · subst hj
    rw [Function.update_self]
    exact (h j).sublist List.erase_sublist
  · rw [Function.update_of_ne hj]
    exact h j

end Levels
end Lib
end Pico
