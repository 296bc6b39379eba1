import Mathlib.Data.Int.Basic
/-!
# Checked — computations that stop at an access out of bounds

A computation is an `Option`: `none` says that it has left an array.  `Ok r Q` says that it has not and that `Q` holds of what
it returned; it is carried through a sequence by `Ok.bind` and through counting loops by their invariants (`forUp_ok`,
`forDown_ok`).
-/
namespace Pico
namespace Lib

variable {α β σ : Type}

/-- **A computation that stays in bounds** and returns what satisfies `Q`. -/
def Ok (r : Option α) (Q : α → Prop) : Prop := ∃ a, r = some a ∧ Q a

theorem Ok.pure {Q : α → Prop} {a : α} (h : Q a) : Ok (some a) Q := ⟨a, rfl, h⟩

theorem Ok.bind {r : Option α} {f : α → Option β} {P : α → Prop} {Q : β → Prop} (h : Ok r P)
    (hf : ∀ a, P a → Ok (f a) Q) : Ok (r >>= f) Q := by
  obtain ⟨a, rfl, ha⟩ := h
  exact hf a ha

theorem Ok.ite {p : Prop} [Decidable p] {r r' : Option α} {Q : α → Prop} (h : p → Ok r Q) (h' : ¬p → Ok r' Q) :
    Ok (if p then r else r') Q := by
  by_cases hp : p
  · rw [if_pos hp]
    exact h hp
  · rw [if_neg hp]
    exact h' hp

/-- `n` turns of a loop whose variable counts up from `i`. -/
def forUp (body : Int → σ → Option σ) : Nat → Int → σ → Option σ
  | 0, _, s => some s
  | n + 1, i, s => body i s >>= forUp body n (i + 1)

/-- `for (i = a; i < b; i++)`. -/
def forRange (a b : Int) (body : Int → σ → Option σ) (s : σ) : Option σ := forUp body (b - a).toNat a s

/-- `n` turns of a loop whose variable counts down from `i`. -/
def forDown (body : Int → σ → Option σ) : Nat → Int → σ → Option σ
  | 0, _, s => some s
  | n + 1, i, s => body i s >>= forDown body n (i - 1)

/-- `for (i = a; i >= b; i--)`. -/
def forRangeDown (a b : Int) (body : Int → σ → Option σ) (s : σ) : Option σ := forDown body (a - b + 1).toNat a s

theorem forUp_ok {body : Int → σ → Option σ} {P : σ → Prop} : ∀ {n : Nat} {i : Int} {s : σ},
    (∀ j s, i ≤ j → j < i + n → P s → Ok (body j s) P) → P s → Ok (forUp body n i s) P
  | 0, _, _, _, hP => .pure hP
  | n + 1, i, s, hbody, hP => by
    refine (hbody i s (Int.le_refl i) (by omega) hP).bind fun s' hP' => forUp_ok (fun j s h1 h2 => ?_) hP'
    exact hbody j s (by omega) (by omega)

theorem forDown_ok {body : Int → σ → Option σ} {P : σ → Prop} : ∀ {n : Nat} {i : Int} {s : σ},
    (∀ j s, j ≤ i → i - n < j → P s → Ok (body j s) P) → P s → Ok (forDown body n i s) P
  | 0, _, _, _, hP => .pure hP
  | n + 1, i, s, hbody, hP => by
    refine (hbody i s (Int.le_refl i) (by omega) hP).bind fun s' hP' => forDown_ok (fun j s h1 h2 => ?_) hP'
    exact hbody j s (by omega) (by omega)

/-- **A counting loop keeps what each of its turns keeps.** -/
theorem forRange_ok {a b : Int} {body : Int → σ → Option σ} {P : σ → Prop} {s : σ}
    (hbody : ∀ i s, a ≤ i → i < b → P s → Ok (body i s) P) (hP : P s) : Ok (forRange a b body s) P :=
  forUp_ok (fun j s h1 h2 => hbody j s h1 (by omega)) hP

theorem forRangeDown_ok {a b : Int} {body : Int → σ → Option σ} {P : σ → Prop} {s : σ}
    (hbody : ∀ i s, b ≤ i → i ≤ a → P s → Ok (body i s) P) (hP : P s) : Ok (forRangeDown a b body s) P :=
  forDown_ok (fun j s h1 h2 => hbody j s (by omega) h1) hP

end Lib
end Pico
