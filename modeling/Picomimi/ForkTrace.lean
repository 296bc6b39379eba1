import Picomimi.ForkFrame
/-!
# ForkTrace — what a fork that fails leaves behind

`task_fork` can fail in four places.  Before the child is linked nothing has been changed; `mm_copy` fails after it, and its
undo gives back the PID (from `RESERVED_PIDS` on) and the memory, but leaves the freed child in the parent's list.
-/
namespace Pico
namespace Fork

open Lib

variable {s s' : State} {args : Args} {a : Allocs} {parent : Task} {k c pid : Nat} {e : Int}

/-- **The call left no trace**: the caller, its slice, the PIDs, the table, the counts and the run queues are as before, and
the child that was to be is in no list. -/
structure NoTrace (s s' : State) (a : Allocs) : Prop where
  parent : ∀ k ∈ s.current, s'.tasks k = s.tasks k
  slice : ∀ k ∈ s.current, (s'.sched.tasks k).timeSlice = (s.sched.tasks k).timeSlice
  pids : s'.pidBitmap = s.pidBitmap
  table : s'.table = s.table
  count : s'.count = s.count
  queues : s'.sched.rqs = s.sched.rqs ∧ s'.sched.links = s.sched.links
  lists : ∀ c ∈ a.child, ∀ p task', s'.tasks p = some task' → c ∈ task'.children →
    ∃ task, s.tasks p = some task ∧ c ∈ task.children

/-- **The call fails before it links the child**: nobody is running, there is no memory for the task, or no PID. -/
def FailsEarly (s : State) (a : Allocs) : Prop := s.current = none ∨ a.child = none ∨ (allocPid s).1 = none

instance (s : State) (a : Allocs) : Decidable (FailsEarly s a) := inferInstanceAs (Decidable (_ ∨ _ ∨ _))

theorem NoTrace.refl (s : State) (a : Allocs) : NoTrace s s a :=
  ⟨fun _ _ => rfl, fun _ _ => rfl, rfl, rfl, rfl, ⟨rfl, rfl⟩, fun _ _ _ task' h hc => ⟨task', h, hc⟩⟩

/-- **How a call fails**: with nothing done, or in `mm_copy`. -/
theorem taskFork_error (h : taskFork s args a = some (.error e, s')) : (FailsEarly s a ∧ s' = s) ∨
    ∃ k parent c pid s₁ s₂, s.current = some k ∧ s.tasks k = some parent ∧ a.child = some c ∧ allocPid s = (some pid, s₁) ∧
      forkMm (linkChild s₁ k c pid parent args a).2 (Mm.has args.cloneFlags cloneVm) parent.mm a = some (.fail s₂) ∧
      s' = (freePid s₂ pid).setTask c none := by
  unfold taskFork at h
  cases hcur : s.current with
  | none =>
    rw [hcur] at h
    cases h
    exact .inl ⟨.inl hcur, rfl⟩
  | some k =>
    rw [hcur] at h
    simp only at h
    cases hk : s.tasks k with
    | none =>
      rw [hk] at h
      cases h
    | some parent =>
      rw [hk] at h
      cases hc : a.child with
      | none =>
        rw [hc] at h
        cases h
        exact .inl ⟨.inr (.inl hc), rfl⟩
      | some c =>
        rw [hc] at h
        simp only at h
        rcases hpid : allocPid s with ⟨_ | pid, s₁⟩
        · have hs := allocPid_none hpid
          rw [hpid] at h
          cases h
          exact .inl ⟨.inr (.inr (by rw [hpid])), hs⟩
        · rw [hpid] at h
          simp only at h
          cases hmm : forkMm (linkChild s₁ k c pid parent args a).2 (Mm.has args.cloneFlags cloneVm) parent.mm a with
          | none =>
            rw [hmm] at h
            cases h
          | some r =>
            rw [hmm] at h
            cases r with
            | fail s₂ =>
              cases h
              exact .inr ⟨k, parent, c, pid, s₁, s₂, rfl, hk, rfl, rfl, hmm, rfl⟩
            | ok mm s₂ =>
              obtain ⟨r, -, he⟩ := Option.map_eq_some_iff.1 h
              cases he

theorem forkMm_fail {share : Bool} {old : Option Nat} (h : forkMm s share old a = some (.fail s')) :
    s' = { s with sys := s'.sys } := by
  unfold forkMm at h
  split at h
  · obtain ⟨r, -, he⟩ := Option.map_eq_some_iff.1 h
    cases he
  · split at h
    · cases h
    · split at h <;> cases h
      rfl

/-- The parent's list is longer by the child. -/
theorem linkChild_parent (s : State) (k c pid : Nat) (parent : Task) (args : Args) (a : Allocs) :
    (linkChild s k c pid parent args a).2.tasks k = some { parent with children := parent.children ++ [c] } :=
  Function.update_self _ _ _

/-- **The parent after `mm_copy` failed**: the child is freed and still in its list. -/
theorem failed_parent {s₂ : State} {share : Bool}
    (h : forkMm (linkChild s k c pid parent args a).2 share parent.mm a = some (.fail s₂)) :
    ((freePid s₂ pid).setTask c none).tasks k =
      if k = c then none else some { parent with children := parent.children ++ [c] } := by
  have hfree : (freePid s₂ pid).tasks = s₂.tasks := by
    unfold freePid
    split <;> rfl
  have hlink : s₂.tasks = (linkChild s k c pid parent args a).2.tasks := by rw [forkMm_fail h]
  show Function.update (freePid s₂ pid).tasks c none k = _
  rw [Function.update_apply, hfree, hlink, linkChild_parent]

/-- **A call that fails leaves no trace exactly when it fails early.** -/
theorem noTrace_iff (h : taskFork s args a = some (.error e, s')) : NoTrace s s' a ↔ FailsEarly s a := by
  rcases taskFork_error h with ⟨hearly, rfl⟩ | ⟨k, parent, c, pid, s₁, s₂, hcur, hk, hc, hpid, hmm, rfl⟩
  · exact iff_of_true (.refl _ a) hearly
  · refine iff_of_false (fun ht => ?_) ?_
    · have hparent := ht.parent k hcur
      rw [hk, failed_parent hmm] at hparent
      by_cases hck : k = c
      · rw [if_pos hck] at hparent
        cases hparent
      · rw [if_neg hck] at hparent
        exact absurd (congrArg Task.children (Option.some.inj hparent)) (by simp)
    · rintro (hn | hn | hn)
      · rw [hcur] at hn
        cases hn
      · rw [hc] at hn
        cases hn
      · rw [hpid] at hn
        cases hn

/-- No memory for a task. -/
theorem noTrace_iff_forking : ∃ s', taskFork forking ⟨0, 0, 0, 0, 0⟩ { plenty with child := none } = some (.error enomem, s') ∧
    NoTrace forking s' { plenty with child := none } := by
  have h : taskFork forking ⟨0, 0, 0, 0, 0⟩ { plenty with child := none } = some (.error enomem, forking) := rfl
  exact ⟨forking, h, (noTrace_iff h).2 (.inr (.inl rfl))⟩

/-- **Without memory for the child's `mm_struct` the fork fails, and the parent's list names memory that is free**; the PID,
which is below `RESERVED_PIDS`, stays taken. -/
theorem not_noTrace : ∃ s', taskFork forking ⟨0, 0, 0, 0, 0⟩ { plenty with mm := none } = some (.error enomem, s') ∧
    ((s'.tasks 7).map Task.children) = some [9] ∧ s'.tasks 9 = none ∧ s'.pidBitmap 3 = true ∧ forking.pidBitmap 3 = false ∧
    ¬NoTrace forking s' { plenty with mm := none } := by
  have hrun : ((taskFork forking ⟨0, 0, 0, 0, 0⟩ { plenty with mm := none }).map fun r =>
      (decide (r.1 = .error enomem), (r.2.tasks 7).map Task.children, (r.2.tasks 9).isNone, r.2.pidBitmap 3)) =
        some (true, some [9], true, true) := by
    decide +kernel
  obtain ⟨⟨r, s'⟩, hr, ho⟩ := Option.map_eq_some_iff.1 hrun
  simp only [Prod.mk.injEq, Option.isNone_iff_eq_none, decide_eq_true_eq] at ho
  obtain ⟨rfl, hlist, hfreed, hpid⟩ := ho
  refine ⟨s', hr, hlist, hfreed, hpid, rfl, fun ht => ?_⟩
  have hparent := ht.parent 7 rfl
  rw [hparent] at hlist
  exact absurd hlist (by decide)

end Fork
end Pico
