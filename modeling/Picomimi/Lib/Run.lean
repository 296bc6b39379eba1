/-!
# Run — runs of a labelled machine and the invariants they keep

A `Machine` takes a step on a label, or refuses the label (`none`).  Whatever a step leaves open (which allocation fails,
which processor runs next) is part of its label, so a step is a function and a run is a fold over the labels.
`Machine.run_invariant` is the induction every safety result below uses; `Machine.runOk_invariant` is the same rule for
the runs whose steps all meet a condition.
-/
namespace Pico
namespace Lib

/-- A machine over states `σ` and labels `α`: the states it starts in and what a label does. -/
structure Machine (σ α : Type) where
  init : σ → Prop
  step : σ → α → Option σ

namespace Machine

variable {σ α : Type} (M : Machine σ α)

/-- The state the labels lead to, when every one of them is accepted. -/
def run : σ → List α → Option σ
  | s, [] => some s
  | s, a :: l => match M.step s a with
    | none => none
    | some t => run t l

/-- **A run whose steps all meet `ok`** at the state they are taken in. -/
def RunOk (ok : σ → α → Prop) : σ → List α → σ → Prop
  | s, [], s' => s = s'
  | s, a :: l, s' => ok s a ∧ ∃ t, M.step s a = some t ∧ RunOk ok t l s'

theorem run_cons {s : σ} {a : α} {l : List α} {s' : σ} :
    M.run s (a :: l) = some s' ↔ ∃ t, M.step s a = some t ∧ M.run t l = some s' := by
  simp only [run]
  cases M.step s a <;> simp

theorem run_append : ∀ {l : List α} {s t : σ}, M.run s l = some t → ∀ l', M.run s (l ++ l') = M.run t l'
  | [], _, _, h, _ => by
    cases h
    rfl
  | a :: l, s, t, h, l' => by
    obtain ⟨u, hu, hrun⟩ := M.run_cons.1 h
    rw [List.cons_append, run, hu]
    exact run_append hrun l'

/-- **What every step keeps, every run keeps.** -/
theorem run_invariant {P : σ → Prop} (hstep : ∀ s a s', P s → M.step s a = some s' → P s') :
    ∀ (l : List α) (s s' : σ), P s → M.run s l = some s' → P s'
  | [], s, s', hP, h => by
    cases h
    exact hP
  | a :: l, s, s', hP, h => by
    obtain ⟨t, ht, hrun⟩ := M.run_cons.1 h
    exact run_invariant hstep l t s' (hstep s a t hP ht) hrun

/-- **What every step that meets the condition keeps, every run of such steps keeps.** -/
theorem runOk_invariant {ok : σ → α → Prop} {P : σ → Prop}
    (hstep : ∀ s a s', P s → ok s a → M.step s a = some s' → P s') :
    ∀ (l : List α) (s s' : σ), P s → M.RunOk ok s l s' → P s'
  | [], s, s', hP, h => by
    cases h
    exact hP
  | a :: l, s, s', hP, h => by
    obtain ⟨hok, t, ht, hrun⟩ := h
    exact runOk_invariant hstep l t s' (hstep s a t hP hok ht) hrun

/-- **`P` in every state the labels pass through**, the first included. -/
def Always (P : σ → Prop) : σ → List α → Prop
  | s, [] => P s
  | s, a :: l => P s ∧ ∀ t, M.step s a = some t → Always P t l

theorem Always.head {P : σ → Prop} {s : σ} : ∀ {l : List α}, M.Always P s l → P s
  | [], h => h
  | _ :: _, h => h.1

/-- **A run keeps `P` throughout exactly when every step meets the condition**: `I` is an invariant of the steps that meet
it and gives `P`, and a step that does not loses `P`. -/
theorem always_iff_runOk {ok : σ → α → Prop} {I P : σ → Prop} (hIP : ∀ s, I s → P s)
    (hok : ∀ s a t, I s → M.step s a = some t → ok s a → I t)
    (hno : ∀ s a t, I s → M.step s a = some t → P t → ok s a) :
    ∀ (l : List α) (s s' : σ), I s → M.run s l = some s' → (M.Always P s l ↔ M.RunOk ok s l s')
  | [], s, s', hI, h => by
    cases h
    exact iff_of_true (hIP s hI) rfl
  | a :: l, s, s', hI, h => by
    obtain ⟨t, ht, hrun⟩ := M.run_cons.1 h
    constructor
    · rintro ⟨-, hall⟩
      have hstep := hno s a t hI ht (hall t ht).head
      exact ⟨hstep, t, ht, (always_iff_runOk hIP hok hno l t s' (hok s a t hI ht hstep) hrun).1 (hall t ht)⟩
    · rintro ⟨hstep, t', ht', hrest⟩
      rw [ht] at ht'
      cases ht'
      refine ⟨hIP s hI, fun t' ht' => ?_⟩
      rw [ht] at ht'
      cases ht'
      exact (always_iff_runOk hIP hok hno l t s' (hok s a t hI ht hstep) hrun).2 hrest

/-- **A condition that implies another in every state of an invariant** implies it along the run. -/
theorem runOk_imp {ok ok' : σ → α → Prop} {I : σ → Prop} (himp : ∀ s a, I s → ok s a → ok' s a)
    (hkeep : ∀ s a t, I s → ok s a → M.step s a = some t → I t) :
    ∀ (l : List α) (s s' : σ), I s → M.RunOk ok s l s' → M.RunOk ok' s l s'
  | [], _, _, _, h => h
  | a :: l, s, s', hI, h => by
    obtain ⟨hok, t, ht, hrest⟩ := h
    exact ⟨himp s a hI hok, t, ht, runOk_imp himp hkeep l t s' (hkeep s a t hI hok ht) hrest⟩

/-- **A condition that holds in every state of an invariant** holds at every step of a run. -/
theorem runOk_of_run {ok : σ → α → Prop} {I : σ → Prop} (hok : ∀ s a, I s → ok s a)
    (hkeep : ∀ s a t, I s → M.step s a = some t → I t) :
    ∀ (l : List α) (s s' : σ), I s → M.run s l = some s' → M.RunOk ok s l s'
  | [], s, s', _, h => by
    cases h
    rfl
  | a :: l, s, s', hI, h => by
    obtain ⟨t, ht, hrun⟩ := M.run_cons.1 h
    exact ⟨hok s a hI, t, ht, runOk_of_run hok hkeep l t s' (hkeep s a t hI ht) hrun⟩

/-- **Two conditions that agree on the steps taken in states of an invariant pick the same runs.** -/
theorem runOk_iff_step {ok ok' : σ → α → Prop} {I : σ → Prop}
    (hiff : ∀ s a t, I s → M.step s a = some t → (ok s a ↔ ok' s a))
    (hkeep : ∀ s a t, I s → ok' s a → M.step s a = some t → I t) :
    ∀ (l : List α) (s s' : σ), I s → (M.RunOk ok s l s' ↔ M.RunOk ok' s l s')
  | [], _, _, _ => Iff.rfl
  | a :: l, s, s', hI => by
    constructor
    · rintro ⟨hok, t, ht, hrest⟩
      have hok' := (hiff s a t hI ht).1 hok
      exact ⟨hok', t, ht, (runOk_iff_step hiff hkeep l t s' (hkeep s a t hI hok' ht)).1 hrest⟩
    · rintro ⟨hok', t, ht, hrest⟩
      exact ⟨(hiff s a t hI ht).2 hok', t, ht, (runOk_iff_step hiff hkeep l t s' (hkeep s a t hI hok' ht)).2 hrest⟩

/-- **Two conditions that agree in every state of an invariant pick the same runs.** -/
theorem runOk_iff {ok ok' : σ → α → Prop} {I : σ → Prop} (hiff : ∀ s a, I s → (ok s a ↔ ok' s a))
    (hkeep : ∀ s a t, I s → ok' s a → M.step s a = some t → I t) (l : List α) (s s' : σ) (hI : I s) :
    M.RunOk ok s l s' ↔ M.RunOk ok' s l s' :=
  M.runOk_iff_step (fun s a _ h _ => hiff s a h) hkeep l s s' hI

/-- A run of checked steps is a run. -/
theorem RunOk.run {ok : σ → α → Prop} : ∀ {l : List α} {s s' : σ}, M.RunOk ok s l s' → M.run s l = some s'
  | [], _, _, h => by
    cases h
    rfl
  | _ :: _, _, _, h => by
    obtain ⟨_, t, ht, hrun⟩ := h
    exact M.run_cons.2 ⟨t, ht, RunOk.run hrun⟩

/-- The run that tests the condition before each step. -/
def check (ok : σ → α → Prop) [∀ s a, Decidable (ok s a)] : σ → List α → Option σ
  | s, [] => some s
  | s, a :: l => if ok s a then
      match M.step s a with
      | none => none
      | some t => check ok t l
    else none

theorem runOk_of_check {ok : σ → α → Prop} [∀ s a, Decidable (ok s a)] : ∀ {l : List α} {s s' : σ},
    M.check ok s l = some s' → M.RunOk ok s l s'
  | [], _, _, h => by
    cases h
    rfl
  | a :: l, s, s', h => by
    simp only [check] at h
    by_cases hok : ok s a
    · rw [if_pos hok] at h
      cases ht : M.step s a with
      | none =>
        rw [ht] at h
        cases h
      | some t =>
        rw [ht] at h
        exact ⟨hok, t, ht, runOk_of_check h⟩
    · rw [if_neg hok] at h
      cases h

theorem check_of_runOk {ok : σ → α → Prop} [∀ s a, Decidable (ok s a)] : ∀ {l : List α} {s s' : σ},
    M.RunOk ok s l s' → M.check ok s l = some s'
  | [], _, _, h => congrArg some h
  | a :: l, s, s', h => by
    obtain ⟨hok, t, ht, hrest⟩ := h
    rw [check, if_pos hok, ht]
    exact check_of_runOk hrest

end Machine
end Lib
end Pico
