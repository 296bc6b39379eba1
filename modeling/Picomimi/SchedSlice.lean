import Picomimi.SchedPolicy
import Picomimi.SchedSmp
/-!
# SchedSlice — time slices over whole runs

A tick and a yield take a slice down to 0, `schedule` and a wakeup compute a new one, and `task_fork` splits the parent's:
the child gets half, but at least 1, and the parent loses that much.  A parent with nothing left loses 1 all the same, and
its counter wraps (`slices_of_run`, `not_split`).
-/
namespace Pico
namespace Sched

open Lib

variable {s s' s'' : State} {c t parent child : Nat}

/-! ## What writes a slice -/

/-- `scheduler_tick`, but for the load balancing, which is a step of its own here. -/
def schedulerTick (s : State) (c : Nat) : State :=
  match (s.rqs c).curr with
  | none => s
  | some curr =>
    if some curr = (s.rqs c).idle then s
    else s.setTask curr { s.tasks curr with timeSlice := (s.tasks curr).timeSlice - 1 }

/-- `yield`, on a CPU whose `current` is `t`. -/
def yield (s : State) (c t : Nat) : State := scheduleImpl (s.setTask t { s.tasks t with timeSlice := 0 }) c

def schedYieldImpl (s : State) (c : Nat) : State :=
  match (s.rqs c).curr with
  | none => scheduleImpl s c
  | some t => yield s c t

/-- `task_create`: the fields that are scheduled by, then the wakeup. -/
def taskCreate (s : State) (t : Nat) : State :=
  schedEnqueueTask (s.setTask t { newTask with state := taskRunning }) t

/-- `create_init_task`, which leaves `static_prio` and `cpus_allowed` 0. -/
def createInitTask (s : State) (t : Nat) : State :=
  schedEnqueueTask (s.setTask t { newTask with state := taskRunning, staticPrio := 0, cpusAllowed := 0 }) t

/-- The slice of a child. -/
def childSlice (slice : Nat) : Nat := if slice / 2 < 1 then 1 else slice / 2

/-- `task_fork`, its scheduling: the copy of the parent, the split, and the wakeup. -/
def taskFork (s : State) (parent child : Nat) : State :=
  let slice := childSlice (s.tasks parent).timeSlice
  let s := s.setTask child { s.tasks parent with state := taskRunning, onRq := false, timeSlice := slice }
  let s := s.setTask parent { s.tasks parent with timeSlice := sub64 (s.tasks parent).timeSlice slice }
  wakeUpProcess s child

inductive SliceEv where
  | smp (e : Ev)                                 -- wakeups, sleeps, `schedule` and the load balancing
  | tick (c : Nat)
  | fork (parent child : Nat)
  | yield (c t : Nat)
  | yieldImpl (c : Nat)
  | create (t : Nat)
  | createInit (t : Nat)
  | setscheduler (t : Nat) (policy prio : Int)
  | setNice (t : Nat) (nice : Int)

/-- One step.  `kmalloc` gives the child of a fork memory of its own. -/
def sliceStep (s : State) : SliceEv → Option State
  | .smp e => smpStep s e
  | .tick c => some (schedulerTick s c)
  | .fork parent child => if child = parent then none else some (taskFork s parent child)
  | .yield c t => some (yield s c t)
  | .yieldImpl c => some (schedYieldImpl s c)
  | .create t => some (taskCreate s t)
  | .createInit t => some (createInitTask s t)
  | .setscheduler t policy prio => some (schedSetscheduler s t policy prio).1
  | .setNice t nice => some (schedSetNice s t nice).1

/-- After `o1_sched_init`. -/
def sliceMachine : Machine State SliceEv where
  init s := Boot s ∧ ∀ t, (s.tasks t).timeSlice ≤ timesliceMax
  step := sliceStep

/-- **A slice is split and none is made**: what parent and child have afterwards is what the parent had, or 1 if it had
nothing. -/
def Split (s s' : State) (parent child : Nat) : Prop :=
  (s'.tasks parent).timeSlice + (s'.tasks child).timeSlice = max (s.tasks parent).timeSlice 1

/-- **The forking task has some of its slice left.** -/
def ForkOk (s : State) : SliceEv → Prop
  | .fork parent _ => 1 ≤ (s.tasks parent).timeSlice
  | _ => True

instance (s : State) : ∀ a, Decidable (ForkOk s a)
  | .fork _ _ => inferInstanceAs (Decidable (_ ≤ _))
  | .smp _ | .tick _ | .yield _ _ | .yieldImpl _ | .create _ | .createInit _ | .setscheduler _ _ _ | .setNice _ _ =>
    inferInstanceAs (Decidable True)

/-! ## Steps that bound the slices they write -/

/-- **Every slice is as it was, or no more than the maximum.** -/
def Bounded (s s' : State) : Prop := ∀ u, (s'.tasks u).timeSlice ≤ max (s.tasks u).timeSlice timesliceMax

theorem Bounded.trans (h : Bounded s s') (h' : Bounded s' s'') : Bounded s s'' := fun u =>
  (h' u).trans (max_le (h u) (le_max_right _ _))

theorem bounded_of_eq (h : ∀ u, (s'.tasks u).timeSlice = (s.tasks u).timeSlice) : Bounded s s' := fun u =>
  h u ▸ le_max_left _ _

theorem bounded_setTask {task : Task} (h : task.timeSlice ≤ max (s.tasks t).timeSlice timesliceMax) :
    Bounded s (s.setTask t task) := by
  intro u
  simp only [State.setTask, Function.update_apply]
  by_cases hu : u = t
  · rw [if_pos hu, hu]
    exact h
  · rw [if_neg hu]
    exact le_max_left _ _

theorem clamp_le (m x : Nat) : (if m < x then m else x) ≤ m := by
  split <;> omega

theorem calculateTimeslice_le (task : Task) : calculateTimeslice task ≤ timesliceMax := clamp_le timesliceMax _

theorem bounded_enqueueTask (s : State) (c t : Nat) : Bounded s (enqueueTask s c t) := bounded_of_eq fun u => by
  rw [enqueueTask_tasks]

theorem bounded_dequeueTask (s : State) (c t : Nat) : Bounded s (dequeueTask s c t) := bounded_of_eq fun u => by
  rw [dequeueTask_tasks]

theorem bounded_expireTask (s : State) (c t : Nat) : Bounded s (expireTask s c t) := by
  intro u
  rw [expireTask_tasks]
  simp only
  by_cases hu : u = t
  · rw [if_pos hu]
    exact (calculateTimeslice_le _).trans (le_max_right _ _)
  · rw [if_neg hu]
    exact le_max_left _ _

theorem bounded_putPrev (s : State) (c : Nat) : Bounded s (putPrev s c) := by
  obtain ⟨-, -, -, h | ⟨prev, -, -, -, h⟩⟩ := putPrev_spec s c
  · rw [h]
    exact bounded_of_eq fun _ => rfl
  · rw [h]
    exact bounded_dequeueTask s c prev

theorem bounded_requeuePrev (s : State) (c : Nat) : Bounded s (requeuePrev s c) := by
  have hself : Bounded s s := bounded_of_eq fun _ => rfl
  unfold requeuePrev
  cases (s.rqs c).curr with
  | none => exact hself
  | some prev =>
    simp only
    split
    · split
      · split
        · refine (bounded_setTask ?_).trans (bounded_expireTask _ c prev)
          exact (show 100 ≤ timesliceMax by decide).trans (le_max_right _ _)
        · exact bounded_enqueueTask s c prev
      · exact hself
    · exact hself

theorem bounded_scheduleImpl (s : State) (c : Nat) : Bounded s (scheduleImpl s c) := by
  have hswap : Bounded (putPrev s c) (swapIfEmpty (putPrev s c) c) := bounded_of_eq fun u => by rw [swapIfEmpty_tasks]
  exact ((bounded_putPrev s c).trans hswap).trans
    ((bounded_requeuePrev _ c).trans (bounded_of_eq fun _ => rfl))

theorem bounded_schedEnqueueTask (s : State) (t : Nat) : Bounded s (schedEnqueueTask s t) := by
  unfold schedEnqueueTask
  split
  · exact bounded_of_eq fun _ => rfl
  · exact bounded_enqueueTask s 0 t

theorem bounded_wakeUpProcess (s : State) (t : Nat) : Bounded s (wakeUpProcess s t) := by
  have hstate : Bounded s (s.setTask t { s.tasks t with state := taskRunning }) := bounded_setTask (le_max_left _ _)
  exact hstate.trans (bounded_schedEnqueueTask _ t)

theorem bounded_schedWakeUp (s : State) (t : Nat) : Bounded s (schedWakeUp s t) := by
  unfold schedWakeUp
  split
  · exact (bounded_setTask ((calculateTimeslice_le _).trans (le_max_right _ _))).trans (bounded_enqueueTask _ _ t)
  · exact bounded_of_eq fun _ => rfl

theorem bounded_schedSetscheduler (s : State) (t : Nat) (policy prio : Int) :
    Bounded s (schedSetscheduler s t policy prio).1 := by
  unfold schedSetscheduler
  have hdeq : Bounded s (if (s.tasks t).onRq then dequeueTask s (s.tasks t).cpu t else s) := by
    split
    · exact bounded_dequeueTask s _ t
    · exact bounded_of_eq fun _ => rfl
  simp only
  revert hdeq
  generalize (if (s.tasks t).onRq then dequeueTask s (s.tasks t).cpu t else s) = s₁
  intro hdeq
  cases setPolicy (s₁.tasks t) policy prio with
  | none => exact hdeq.trans (bounded_setTask (le_max_left _ _))
  | some task =>
    have hset : Bounded s₁ (s₁.setTask t { task with timeSlice := calculateTimeslice task }) :=
      bounded_setTask ((calculateTimeslice_le _).trans (le_max_right _ _))
    simp only
    split
    · exact (hdeq.trans hset).trans (bounded_enqueueTask _ _ t)
    · exact hdeq.trans hset

theorem bounded_taskMigrate (s : State) (t src dst : Nat) : Bounded s (taskMigrate s t src dst) := by
  unfold taskMigrate
  have hdeq : Bounded s (if (s.tasks t).onRq then dequeueTask s src t else s) := by
    split
    · exact bounded_dequeueTask s src t
    · exact bounded_of_eq fun _ => rfl
  simp only
  revert hdeq
  generalize (if (s.tasks t).onRq then dequeueTask s src t else s) = s₁
  intro hdeq
  have hcpu : Bounded s₁ (s₁.setTask t { s₁.tasks t with cpu := (s₁.rqs dst).cpu }) := bounded_setTask (le_max_left _ _)
  exact (hdeq.trans hcpu).trans ((bounded_enqueueTask _ dst t).trans (bounded_of_eq fun _ => rfl))

theorem bounded_pullTasks {src this fuel : Nat} : ∀ {n : Nat} {s s' : State}, pullTasks src this fuel n s = some s' →
    Bounded s s'
  | 0, s, s', h => by
    cases h
    exact bounded_of_eq fun _ => rfl
  | n + 1, s, s', h => by
    have hself : Bounded s s := bounded_of_eq fun _ => rfl
    unfold pullTasks at h
    split at h
    · cases h
      exact hself
    · split at h
      · cases h
        exact hself
      · split at h
        · cases h
        · cases h
          exact hself
        · rename_i t _
          exact (bounded_taskMigrate s t src this).trans (bounded_pullTasks h)

theorem bounded_smpStep {e : Ev} (h : smpStep s e = some s') : Bounded s s' := by
  cases e with
  | schedEnqueueTask t =>
    cases h
    exact bounded_schedEnqueueTask s t
  | schedWakeUp t =>
    cases h
    exact bounded_schedWakeUp s t
  | wakeUpProcess t =>
    cases h
    exact bounded_wakeUpProcess s t
  | schedule c =>
    cases h
    exact bounded_scheduleImpl s c
  | setState c state =>
    simp only [smpStep] at h
    split at h
    · cases h
    · cases h
      exact bounded_setTask (le_max_left _ _)
  | tick c =>
    simp only [smpStep] at h
    split at h
    · cases h
      exact bounded_of_eq fun _ => rfl
    · cases h
      exact bounded_setTask ((Nat.sub_le _ _).trans (le_max_left _ _))
  | balance this src fuel =>
    simp only [smpStep] at h
    split at h
    · cases h
    · exact bounded_pullTasks h

/-! ## The split -/

/-- **What `task_fork` leaves of the two slices.** -/
theorem taskFork_slices (hne : child ≠ parent) :
    ((taskFork s parent child).tasks parent).timeSlice =
        sub64 (s.tasks parent).timeSlice (childSlice (s.tasks parent).timeSlice) ∧
      ((taskFork s parent child).tasks child).timeSlice = childSlice (s.tasks parent).timeSlice ∧
      ∀ u, u ≠ parent → u ≠ child → ((taskFork s parent child).tasks u).timeSlice = (s.tasks u).timeSlice := by
  have hwake : ∀ (s : State) (t u : Nat), ((wakeUpProcess s t).tasks u).timeSlice = (s.tasks u).timeSlice := by
    intro s t u
    have hstate : ((s.setTask t { s.tasks t with state := taskRunning }).tasks u).timeSlice = (s.tasks u).timeSlice := by
      simp only [State.setTask, Function.update_apply]
      by_cases hu : u = t
      · rw [if_pos hu, hu]
      · rw [if_neg hu]
    rw [← hstate, wakeUpProcess, schedEnqueueTask]
    split
    · rfl
    · rw [enqueueTask_tasks]
  simp only [taskFork, hwake, State.setTask]
  refine ⟨?_, ?_, fun u hp hc => ?_⟩
  · rw [Function.update_self, Function.update_of_ne hne.symm]
  · rw [Function.update_of_ne hne, Function.update_self]
  · rw [Function.update_of_ne hp, Function.update_of_ne hc]

/-- **The split is right exactly when there is something to split.** -/
theorem split_iff (hne : child ≠ parent) (hlt : (s.tasks parent).timeSlice < word64) :
    Split s (taskFork s parent child) parent child ↔ 1 ≤ (s.tasks parent).timeSlice := by
  obtain ⟨hp, hc, -⟩ := taskFork_slices (s := s) hne
  rw [Split, hp, hc]
  generalize (s.tasks parent).timeSlice = slice at *
  by_cases h : 1 ≤ slice
  · have hle : childSlice slice ≤ slice := by
      unfold childSlice
      split <;> omega
    rw [sub64_of_le hle hlt]
    exact iff_of_true (by omega) h
  · obtain rfl : slice = 0 := by omega
    exact iff_of_false (by decide) h

/-- A right split keeps the slices below the maximum. -/
theorem taskFork_le (hne : child ≠ parent) (h : ∀ u, (s.tasks u).timeSlice ≤ timesliceMax)
    (hok : 1 ≤ (s.tasks parent).timeSlice) (u : Nat) : ((taskFork s parent child).tasks u).timeSlice ≤ timesliceMax := by
  obtain ⟨hp, hc, hother⟩ := taskFork_slices (s := s) hne
  have hlt : (s.tasks parent).timeSlice < word64 := lt_of_le_of_lt (h parent) (by decide)
  have hsplit : _ + _ = max _ 1 := (split_iff hne hlt).2 hok
  have hpar := h parent
  by_cases hup : u = parent
  · rw [hup]
    omega
  by_cases huc : u = child
  · rw [huc]
    omega
  · rw [hother u hup huc]
    exact h u

/-! ## Runs -/

theorem Bounded.le (h : Bounded s s') (hs : ∀ u, (s.tasks u).timeSlice ≤ timesliceMax) (u : Nat) :
    (s'.tasks u).timeSlice ≤ timesliceMax := (h u).trans (max_le (hs u) (Nat.le_refl _))

/-- **Every step that meets the condition keeps the slices below the maximum.** -/
theorem sliceStep_le {a : SliceEv} (h : ∀ u, (s.tasks u).timeSlice ≤ timesliceMax) (hok : ForkOk s a)
    (hs : sliceStep s a = some s') : ∀ u, (s'.tasks u).timeSlice ≤ timesliceMax := by
  have hyield : ∀ c t, Bounded s (yield s c t) := by
    intro c t
    have hzero : Bounded s (s.setTask t { s.tasks t with timeSlice := 0 }) := bounded_setTask (Nat.zero_le _)
    exact hzero.trans (bounded_scheduleImpl _ c)
  have hcreate : ∀ (t : Nat) (task : Task), task.timeSlice = 100 → Bounded s (schedEnqueueTask (s.setTask t task) t) := by
    intro t task htask
    have hset : Bounded s (s.setTask t task) := bounded_setTask (by
      rw [htask]
      exact (show 100 ≤ timesliceMax by decide).trans (le_max_right _ _))
    exact hset.trans (bounded_schedEnqueueTask _ t)
  cases a with
  | smp e => exact (bounded_smpStep hs).le h
  | tick c =>
    cases hs
    refine Bounded.le ?_ h
    unfold schedulerTick
    cases (s.rqs c).curr with
    | none => exact bounded_of_eq fun _ => rfl
    | some curr =>
      simp only
      split
      · exact bounded_of_eq fun _ => rfl
      · exact bounded_setTask ((Nat.sub_le _ _).trans (le_max_left _ _))
  | fork parent child =>
    simp only [sliceStep] at hs
    by_cases hne : child = parent
    · rw [if_pos hne] at hs
      cases hs
    · rw [if_neg hne] at hs
      cases hs
      exact taskFork_le hne h hok
  | yield c t =>
    cases hs
    exact (hyield c t).le h
  | yieldImpl c =>
    cases hs
    refine Bounded.le ?_ h
    unfold schedYieldImpl
    cases (s.rqs c).curr with
    | none => exact bounded_scheduleImpl s c
    | some t => exact hyield c t
  | create t =>
    cases hs
    exact (hcreate t _ rfl).le h
  | createInit t =>
    cases hs
    exact (hcreate t _ rfl).le h
  | setscheduler t policy prio =>
    cases hs
    exact (bounded_schedSetscheduler s t policy prio).le h
  | setNice t nice =>
    cases hs
    exact (bounded_schedSetscheduler s t _ _).le h

/-- **Slices are conserved and stay below the maximum** in every state that a run reaches in which nobody forks on an empty
slice; and there a fork splits the parent's slice exactly when some of it is left. -/
theorem slices_of_run (l : List SliceEv) (s s' : State) (h0 : sliceMachine.init s)
    (h : sliceMachine.RunOk ForkOk s l s') :
    (∀ t, (s'.tasks t).timeSlice ≤ timesliceMax) ∧
      ∀ parent child, child ≠ parent →
        (Split s' (taskFork s' parent child) parent child ↔ 1 ≤ (s'.tasks parent).timeSlice) := by
  have hle := sliceMachine.runOk_invariant (P := fun s => ∀ t, (s.tasks t).timeSlice ≤ timesliceMax)
    (fun s a s' hP hok hs => sliceStep_le hP hok hs) l s s' h0.2 h
  exact ⟨hle, fun parent child hne => split_iff hne (lt_of_le_of_lt (hle parent) (by decide))⟩

theorem bootState_slices : sliceMachine.init bootState := ⟨bootState_boot, fun _ => (show 100 ≤ timesliceMax by decide)⟩

/-- A task is created, runs, is woken and ticked, forks twice, and yields. -/
def forks : List SliceEv :=
  [.create 1, .smp (.schedule 0), .tick 0, .fork 1 2, .tick 0, .fork 1 3, .yieldImpl 0, .setNice 2 5, .smp (.schedule 0)]

theorem slices_of_run_forks : ∃ s', sliceMachine.RunOk ForkOk bootState forks s' ∧
    (s'.tasks 3).timeSlice = 24 ∧ ∀ t, (s'.tasks t).timeSlice ≤ timesliceMax := by
  have hrun : ((sliceMachine.check ForkOk bootState forks).map fun s => (s.tasks 3).timeSlice) = some 24 := by
    decide +kernel
  obtain ⟨s', h, hslice⟩ := Option.map_eq_some_iff.1 hrun
  have hok := sliceMachine.runOk_of_check h
  exact ⟨s', hok, hslice, (slices_of_run _ _ s' bootState_slices hok).1⟩

/-- **A task that forks nine times in a row has a slice of `2 ^ 64 - 1`**: the eighth child takes what is left of it. -/
theorem not_split :
    ∃ s s', sliceMachine.init bootState ∧
      sliceMachine.run bootState ([.create 1, .smp (.schedule 0)] ++ (List.range 8).map fun i => .fork 1 (i + 2)) = some s ∧
      sliceStep s (.fork 1 10) = some s' ∧ ¬Split s s' 1 10 ∧ ¬(s'.tasks 1).timeSlice ≤ timesliceMax := by
  have hrun : ((sliceMachine.run bootState ([.create 1, .smp (.schedule 0)] ++
      (List.range 8).map fun i => .fork 1 (i + 2))).map fun s => (s.tasks 1).timeSlice) = some 0 := by
    decide +kernel
  obtain ⟨s, h, hslice⟩ := Option.map_eq_some_iff.1 hrun
  have hne : (10 : Nat) ≠ 1 := by decide
  have hlt : (s.tasks 1).timeSlice < word64 := by
    rw [hslice]
    decide
  refine ⟨s, taskFork s 1 10, bootState_slices, h, rfl, ?_, ?_⟩
  · rw [split_iff hne hlt, hslice]
    decide
  · rw [(taskFork_slices hne).1, hslice]
    decide

end Sched
end Pico
