import Picomimi.SchedRun
/-!
# SchedPolicy — what a change of policy may leave behind

`sched_setscheduler` takes the task off its queue and stores the policy before it looks at it, returns from the default
branch without undoing either, and never looks at `prio`.  `safe_iff` says for which arguments a failed call changes
nothing and a successful one leaves a priority that indexes a queue; `sched_set_nice` clamps its argument, and goes wrong
only through the policy the task has (`schedSetNice_safe_iff`).
-/
namespace Pico
namespace Sched

open Lib

variable {s s' : State} {q : QIdx → List Nat} {t : Nat} {policy prio nice : Int} {task task' : Task}

/-- The policies of the first case label, and of the second. -/
def RtPolicy (policy : Int) : Prop := policy = schedFifo ∨ policy = schedRr

def NicePolicy (policy : Int) : Prop := policy = schedNormal ∨ policy = schedBatch ∨ policy = schedIdle

instance (policy : Int) : Decidable (RtPolicy policy) := inferInstanceAs (Decidable (_ ∨ _))

instance (policy : Int) : Decidable (NicePolicy policy) := inferInstanceAs (Decidable (_ ∨ _))

/-- **The call left everything as it was**: the task's policy and priorities, whether it is queued, and the run queues. -/
structure Untouched (s s' : State) (t : Nat) : Prop where
  policy : (s'.tasks t).policy = (s.tasks t).policy
  prio : (s'.tasks t).prio = (s.tasks t).prio
  staticPrio : (s'.tasks t).staticPrio = (s.tasks t).staticPrio
  rtPriority : (s'.tasks t).rtPriority = (s.tasks t).rtPriority
  onRq : (s'.tasks t).onRq = (s.tasks t).onRq
  rqs : s'.rqs = s.rqs
  links : s'.links = s.links

/-- **The call did what it is for**: the task is queued if it was, the queues are lists still, and the priority it has, like
the one a wakeup computes, indexes a queue. -/
structure Done (s s' : State) (t : Nat) : Prop where
  onRq : (s'.tasks t).onRq = (s.tasks t).onRq
  lists : ∀ q, Lists s q → ∃ q', Lists s' q'
  prio : PrioOk (s'.tasks t)
  wakeup : 0 ≤ effectivePrio (s'.tasks t) ∧ effectivePrio (s'.tasks t) < maxPrio

/-- **What a call must not leave behind.** -/
def Safe (s : State) (t : Nat) (r : State × Int) : Prop := if r.2 = 0 then Done s r.1 t else Untouched s r.1 t

/-- **The arguments for which nothing goes wrong**: a known policy and a `prio` whose priority is in range; an unknown one
only for a task that is not queued and has that policy already. -/
def PolicyOk (task : Task) (policy prio : Int) : Prop :=
  if RtPolicy policy then 0 ≤ maxRtPrio - 1 - prio ∧ maxRtPrio - 1 - prio < maxPrio
  else if NicePolicy policy then 0 ≤ 120 + prio ∧ 120 + prio < maxPrio
  else task.onRq = false ∧ policy = task.policy

instance (task : Task) (policy prio : Int) : Decidable (PolicyOk task policy prio) := by
  unfold PolicyOk
  infer_instance

/-! ## The policy switch -/

theorem setPolicy_rt (h : RtPolicy policy) : setPolicy task policy prio =
    some { task with policy := policy, rtPriority := (prio % word32).toNat, prio := maxRtPrio - 1 - prio } := if_pos h

/-- `effective_prio` is the static priority under a policy that is not real-time. -/
theorem effectivePrio_nice (h : NicePolicy task.policy) : effectivePrio task = task.staticPrio := by
  have hne : ¬RtPolicy task.policy := by
    rcases h with h | h | h <;> rw [h] <;> decide
  exact if_neg hne

theorem setPolicy_nice (h : NicePolicy policy) : setPolicy task policy prio =
    some { task with policy := policy, staticPrio := 120 + prio, prio := 120 + prio } := by
  have hne : ¬RtPolicy policy := by
    rcases h with rfl | rfl | rfl <;> decide
  have heff : effectivePrio { task with policy := policy, staticPrio := 120 + prio } = 120 + prio :=
    effectivePrio_nice h
  exact ((if_neg hne).trans (if_pos h)).trans
    (congrArg (fun x => some { task with policy := policy, staticPrio := 120 + prio, prio := x }) heff)

theorem setPolicy_none (h : ¬RtPolicy policy) (h' : ¬NicePolicy policy) : setPolicy task policy prio = none :=
  (if_neg h).trans (if_neg h')

/-- A real-time priority comes back out of its `u32`. -/
theorem effectivePrio_rt (h : RtPolicy task.policy) (hp : 0 ≤ maxRtPrio - 1 - prio ∧ maxRtPrio - 1 - prio < maxPrio)
    (hrt : task.rtPriority = (prio % word32).toNat) : effectivePrio task = maxRtPrio - 1 - prio := by
  have hw : ((word32 : Nat) : Int) = 4294967296 := rfl
  refine (if_pos h).trans ?_
  rw [hrt, toS32, hw]
  unfold maxRtPrio maxPrio at *
  omega

/-- **What the call does once the policy is known.** -/
theorem schedSetscheduler_some (h : setPolicy (s.tasks t) policy prio = some task) :
    (schedSetscheduler s t policy prio).2 = 0 ∧
      (schedSetscheduler s t policy prio).1.tasks t =
        { task with onRq := (s.tasks t).onRq, timeSlice := calculateTimeslice task } := by
  have hkeep : ∀ b, calculateTimeslice { task with onRq := b } = calculateTimeslice task := fun _ => rfl
  unfold schedSetscheduler
  cases hon : (s.tasks t).onRq with
  | false =>
    have hoff := setPolicy_onRq h
    rw [hon] at hoff
    simp only [Bool.false_eq_true, if_false, h, State.setTask, Function.update_self, true_and]
    rw [← hoff]
  | true =>
    have htask : (dequeueTask s (s.tasks t).cpu t).tasks t = { s.tasks t with onRq := false } := by
      rw [dequeueTask_tasks, if_pos rfl]
    simp only [if_true, htask, setPolicy_with_onRq, h, Option.map_some, true_and, enqueueTask_tasks, State.setTask,
      Function.update_self, hkeep]

/-- **What it does with a policy it does not know.** -/
theorem schedSetscheduler_none (h : setPolicy (s.tasks t) policy prio = none) :
    (schedSetscheduler s t policy prio).2 = -einval ∧
      (schedSetscheduler s t policy prio).1 =
        (if (s.tasks t).onRq then dequeueTask s (s.tasks t).cpu t else s).setTask t
          { s.tasks t with onRq := false, policy := policy } := by
  unfold schedSetscheduler
  cases hon : (s.tasks t).onRq with
  | false =>
    simp only [Bool.false_eq_true, if_false, h, true_and]
    rw [← hon]
  | true =>
    have htask : (dequeueTask s (s.tasks t).cpu t).tasks t = { s.tasks t with onRq := false } := by
      rw [dequeueTask_tasks, if_pos rfl]
    simp only [if_true, htask, setPolicy_with_onRq, h, Option.map_none, true_and]

/-- A successful call with a priority in range keeps the lists, whichever array the task was on. -/
theorem Lists.schedSetscheduler (hl : Lists s q) (h : setPolicy (s.tasks t) policy prio = some task) (hp : PrioOk task) :
    ∃ q', Lists (Sched.schedSetscheduler s t policy prio).1 q' := by
  unfold Sched.schedSetscheduler
  cases hon : (s.tasks t).onRq with
  | false =>
    have hoff := setPolicy_onRq h
    simp only [Bool.false_eq_true, if_false, h]
    exact ⟨q, hl.setTask hoff⟩
  | true =>
    obtain ⟨i, hi⟩ := (hl.onRq t).1 hon
    have h1 := hl.dequeueTask hi (s.tasks t).cpu
    have htask : (Sched.dequeueTask s (s.tasks t).cpu t).tasks t = { s.tasks t with onRq := false } := by
      rw [dequeueTask_tasks, if_pos rfl]
    simp only [if_true, htask, setPolicy_with_onRq, h, Option.map_some]
    have hoff : ({ { task with onRq := false } with
        timeSlice := calculateTimeslice { task with onRq := false } } : Task).onRq =
          ((Sched.dequeueTask s (s.tasks t).cpu t).tasks t).onRq := by rw [htask]
    have h2 := h1.setTask hoff
    obtain ⟨p, hp⟩ := hp.fin
    refine ⟨_, h2.enqueueTask ?_ _ (p := p) ?_⟩
    · simp only [State.setTask, Function.update_self]
    · simp only [State.setTask, Function.update_self]
      exact hp

theorem done_iff (h : setPolicy (s.tasks t) policy prio = some task)
    (heff : PrioOk task → effectivePrio task = task.prio) :
    Safe s t (schedSetscheduler s t policy prio) ↔ PrioOk task := by
  obtain ⟨hret, htask⟩ := schedSetscheduler_some h
  have hprio : PrioOk ((schedSetscheduler s t policy prio).1.tasks t) ↔ PrioOk task := by
    rw [htask]
    exact Iff.rfl
  have hkeep : effectivePrio ((schedSetscheduler s t policy prio).1.tasks t) = effectivePrio task := by
    rw [htask]
    rfl
  rw [Safe, if_pos hret]
  refine ⟨fun hd => hprio.1 hd.prio, fun hp => ⟨by rw [htask], fun q hl => hl.schedSetscheduler h hp, hprio.2 hp, ?_⟩⟩
  rw [hkeep, heff hp]
  exact hp

theorem untouched_iff (h : setPolicy (s.tasks t) policy prio = none) :
    Safe s t (schedSetscheduler s t policy prio) ↔ (s.tasks t).onRq = false ∧ policy = (s.tasks t).policy := by
  obtain ⟨hret, hstate⟩ := schedSetscheduler_none h
  rw [Safe, hret, if_neg (by decide), hstate]
  constructor
  · intro hu
    have hon := hu.onRq
    have hpol := hu.policy
    simp only [State.setTask, Function.update_self] at hon hpol
    exact ⟨hon.symm, hpol⟩
  · rintro ⟨hoff, rfl⟩
    have hsame : s.setTask t { s.tasks t with onRq := false, policy := (s.tasks t).policy } = s := by
      rw [State.setTask, ← hoff, Function.update_eq_self]
    simp only [hoff, Bool.false_eq_true, if_false, hsame]
    exact ⟨rfl, rfl, rfl, rfl, rfl, rfl, rfl⟩

/-- **`sched_setscheduler` is safe exactly on such arguments**, in any state. -/
theorem safe_iff (s : State) (t : Nat) (policy prio : Int) :
    Safe s t (schedSetscheduler s t policy prio) ↔ PolicyOk (s.tasks t) policy prio := by
  unfold PolicyOk
  by_cases hrt : RtPolicy policy
  · rw [if_pos hrt, done_iff (setPolicy_rt hrt) fun hp => effectivePrio_rt hrt hp rfl]
    exact Iff.rfl
  · rw [if_neg hrt]
    by_cases hnice : NicePolicy policy
    · rw [if_pos hnice, done_iff (setPolicy_nice hnice) fun _ => effectivePrio_nice hnice]
      exact Iff.rfl
    · rw [if_neg hnice]
      exact untouched_iff (setPolicy_none hrt hnice)

/-- One task, queued. -/
def queuedOne : State := enqueueTask bootState 0 1

/-- **An unknown policy takes a queued task off its queue for good, and a real-time priority of 200 queues it below the first
queue**, though the run queues were in order before. -/
theorem not_safe : (∃ q, Books queuedOne q) ∧ OnActive queuedOne 0 1 ∧
    ¬Safe queuedOne 1 (schedSetscheduler queuedOne 1 7 0) ∧
    ¬Safe queuedOne 1 (schedSetscheduler queuedOne 1 schedFifo 200) := by
  have hone : (queuedOne.tasks 1).onRq = true := by decide +kernel
  refine ⟨bootState_boot.books.enqueueTask (t := 1) (by decide) (by decide) 0, ⟨by decide +kernel, 1, by decide +kernel⟩, ?_, ?_⟩
  · rw [untouched_iff (by decide +kernel), hone]
    exact fun h => by cases h.1
  · rw [done_iff (setPolicy_rt (by decide)) fun hp => absurd hp (by decide)]
    decide

/-! ## `sched_set_nice` -/

def minNice : Int := -20
def maxNice : Int := 19

def schedSetNice (s : State) (t : Nat) (nice : Int) : State × Int :=
  let nice := if nice < minNice then minNice else nice
  let nice := if maxNice < nice then maxNice else nice
  schedSetscheduler s t (s.tasks t).policy nice

/-- **`sched_set_nice` is safe for every nice value**, unless the task is queued under a policy that is none. -/
theorem schedSetNice_safe_iff (s : State) (t : Nat) (nice : Int) : Safe s t (schedSetNice s t nice) ↔
    RtPolicy (s.tasks t).policy ∨ NicePolicy (s.tasks t).policy ∨ (s.tasks t).onRq = false := by
  unfold schedSetNice
  simp only
  generalize hn : (if nice < minNice then minNice else nice) = n
  generalize hm : (if maxNice < n then maxNice else n) = m
  have hclamp : minNice ≤ m ∧ m ≤ maxNice := by
    unfold minNice maxNice at *
    omega
  by_cases hrt : RtPolicy (s.tasks t).policy
  · rw [done_iff (setPolicy_rt hrt) fun hp => effectivePrio_rt hrt hp rfl]
    refine iff_of_true ?_ (.inl hrt)
    unfold PrioOk maxRtPrio maxPrio minNice maxNice at *
    simp only
    omega
  by_cases hnice : NicePolicy (s.tasks t).policy
  · rw [done_iff (setPolicy_nice hnice) fun _ => effectivePrio_nice hnice]
    refine iff_of_true ?_ (.inr (.inl hnice))
    unfold PrioOk maxPrio minNice maxNice at *
    simp only
    omega
  · rw [untouched_iff (setPolicy_none hrt hnice)]
    simp [hrt, hnice]

end Sched
end Pico
