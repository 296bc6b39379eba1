import Mathlib.Logic.Function.Basic
/-!
# Holders — a bitmap of what is in use, and who uses it

`h i` is what `i` holds.  `Exact m h` says that `m` marks what somebody holds and nothing else.  One holder changes at a
time: with the marks left alone, with a mark set, or with one cleared, and each is right under a condition on the others.
-/
namespace Pico
namespace Lib

variable {ι ρ : Type} [DecidableEq ι]

def Held (h : ι → Option ρ) (r : ρ) : Prop := ∃ i, h i = some r

/-- Another than `i` holds `r`. -/
def HeldElse (h : ι → Option ρ) (i : ι) (r : ρ) : Prop := ∃ j, j ≠ i ∧ h j = some r

/-- **What is marked is what is held.** -/
def Exact (m : ρ → Bool) (h : ι → Option ρ) : Prop := ∀ r, m r = true ↔ Held h r

variable {h : ι → Option ρ} {i : ι} {r : ρ} {m : ρ → Bool} {new : Option ρ}

theorem held_iff (h : ι → Option ρ) (i : ι) (r : ρ) : Held h r ↔ HeldElse h i r ∨ h i = some r := by
  constructor
  · rintro ⟨j, hj⟩
    by_cases hji : j = i
    · exact .inr (hji ▸ hj)
    · exact .inl ⟨j, hji, hj⟩
  · rintro (⟨j, -, hj⟩ | hi)
    · exact ⟨j, hj⟩
    · exact ⟨i, hi⟩

theorem heldElse_update : HeldElse (Function.update h i new) i r ↔ HeldElse h i r := by
  refine exists_congr fun j => and_congr_right fun hji => ?_
  rw [Function.update_of_ne hji]

theorem held_update : Held (Function.update h i new) r ↔ HeldElse h i r ∨ new = some r := by
  rw [held_iff _ i, heldElse_update, Function.update_self]

/-- **With the marks left alone**, what is let go of and what is taken are held by another too. -/
theorem Exact.keep_iff (e : Exact m h) : Exact m (Function.update h i new) ↔
    h i = new ∨ (∀ q, h i = some q → HeldElse h i q) ∧ ∀ q, new = some q → HeldElse h i q := by
  constructor
  · intro e'
    by_cases hne : h i = new
    · exact .inl hne
    refine .inr ⟨fun q hq => ?_, fun q hq => ?_⟩
    · have hm := (e q).2 ⟨i, hq⟩
      exact (held_update.1 ((e' q).1 hm)).resolve_right fun hnew => hne (hq.trans hnew.symm)
    · have hm := (e' q).2 (held_update.2 (.inr hq))
      exact ((held_iff h i q).1 ((e q).1 hm)).resolve_right fun hold => hne (hold.trans hq.symm)
  · rintro (rfl | ⟨hold, hnew⟩)
    · rwa [Function.update_eq_self]
    · intro q
      rw [e q, held_iff h i, held_update, or_iff_left_of_imp (hold q), or_iff_left_of_imp (hnew q)]

variable [DecidableEq ρ]

/-- **With a mark set that was clear**, it is for the new holder, and what is let go of is held by another too. -/
theorem Exact.take_iff (e : Exact m h) (hr : m r = false) :
    Exact (Function.update m r true) (Function.update h i new) ↔ new = some r ∧ ∀ q, h i = some q → HeldElse h i q := by
  have hfree : ¬Held h r := fun hh => by
    rw [(e r).2 hh] at hr
    cases hr
  have hne : ∀ q, h i = some q → q ≠ r := by
    rintro q hq rfl
    exact hfree ⟨i, hq⟩
  constructor
  · intro e'
    have hnew : new = some r := by
      refine (held_update.1 ((e' r).1 (Function.update_self _ _ _))).resolve_left ?_
      rintro ⟨j, -, hj⟩
      exact hfree ⟨j, hj⟩
    refine ⟨hnew, fun q hq => ?_⟩
    have hm : Function.update m r true q = true := by
      rw [Function.update_of_ne (hne q hq)]
      exact (e q).2 ⟨i, hq⟩
    refine (held_update.1 ((e' q).1 hm)).resolve_right fun hq' => hne q hq ?_
    rw [hnew, Option.some.injEq] at hq'
    exact hq'.symm
  · rintro ⟨rfl, hold⟩ q
    rw [held_update]
    by_cases hqr : q = r
    · subst hqr
      rw [Function.update_self]
      exact iff_of_true rfl (.inr rfl)
    · rw [Function.update_of_ne hqr, e q, held_iff h i, or_iff_left_of_imp (hold q), Option.some.injEq, eq_comm (a := r),
        or_iff_left hqr]

/-- **With a mark cleared**, its holder lets go of it and was the only one. -/
theorem Exact.give_iff (e : Exact m h) (hr : h i = some r) :
    Exact (Function.update m r false) (Function.update h i new) ↔
      ¬HeldElse h i r ∧ new ≠ some r ∧ ∀ q, new = some q → HeldElse h i q := by
  constructor
  · intro e'
    have hclear : ¬(HeldElse h i r ∨ new = some r) := fun hh => by
      have := (e' r).2 (held_update.2 hh)
      rw [Function.update_self] at this
      cases this
    refine ⟨fun hh => hclear (.inl hh), fun hh => hclear (.inr hh), fun q hq => ?_⟩
    have hqr : q ≠ r := by
      rintro rfl
      exact hclear (.inr hq)
    have hm := (e' q).2 (held_update.2 (.inr hq))
    rw [Function.update_of_ne hqr] at hm
    refine ((held_iff h i q).1 ((e q).1 hm)).resolve_right fun hq' => hqr ?_
    rw [hr, Option.some.injEq] at hq'
    exact hq'.symm
  · rintro ⟨helse, hne, hnew⟩ q
    rw [held_update, or_iff_left_of_imp (hnew q)]
    by_cases hqr : q = r
    · subst hqr
      rw [Function.update_self]
      exact iff_of_false Bool.false_ne_true helse
    · rw [Function.update_of_ne hqr, e q, held_iff h i, hr, Option.some.injEq, eq_comm (a := r), or_iff_left hqr]

end Lib
end Pico
