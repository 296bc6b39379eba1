import Picomimi.SchedRun
/-!
# SchedSmp — where the tasks are, over all the run queues

`Placed` is what no interleaving of wakeups, sleeps and migrations may break: a task is on one queue of the run queue its
`cpu` field names, or on none, and a runnable one is queued or some CPU's current task.  Two wake paths can break it:
`sched_wake_up` looks at the task's state and not at `on_rq`, and `sched_enqueue_task` looks at `on_rq` and not at the
task's CPU (`EvOk` says when neither does harm).  `rq->idle` is never set: nothing in the kernel calls `sched_set_idle`.
-/
namespace Pico
namespace Sched

open Lib

/-- **Every task is where its fields say**, and no runnable task is lost. -/
structure Placed (s : State) (q : QIdx → List Nat) : Prop where
  lists : Lists s q
  cpu : ∀ i, ∀ t ∈ q i, (s.tasks t).cpu = i.cpu
  running : ∀ t, (s.tasks t).state = taskRunning → (∃ i, t ∈ q i) ∨ ∃ c, (s.rqs c).curr = some t

/-- No bit beyond the last queue. -/
def BitsBelow (bitmap : Bitmap) : Prop := ∀ p, 140 ≤ p → p < 512 → testPrioBit bitmap (p : Nat) = false

structure RqOk (rq : Runqueue) (c : Nat) : Prop where
  cpu : rq.cpu = c
  idle : rq.idle = none
  activeBits : BitsBelow rq.activeBitmap
  expiredBits : BitsBelow rq.expiredBitmap

/-- The task's priority, and the one a wakeup would give it, index a queue. -/
structure TaskOk (task : Task) : Prop where
  prio : PrioOk task
  effective : 0 ≤ effectivePrio task ∧ effectivePrio task < maxPrio

/-- **The invariant of the run queues and tasks together.** -/
structure Smp (s : State) (q : QIdx → List Nat) : Prop where
  lists : Lists s q
  cpu : ∀ i, ∀ t ∈ q i, (s.tasks t).cpu = i.cpu
  curr : ∀ c t, (s.rqs c).curr = some t → (s.tasks t).cpu = c
  rq : ∀ c, RqOk (s.rqs c) c
  task : ∀ t, TaskOk (s.tasks t)

/-- The part of it that does not say where the tasks are. -/
structure Sound (s : State) (q : QIdx → List Nat) : Prop where
  lists : Lists s q
  rq : ∀ c, RqOk (s.rqs c) c
  task : ∀ t, TaskOk (s.tasks t)

/-- Runnable tasks are queued or current. -/
def NoneLost (s : State) : Prop :=
  ∀ t, (s.tasks t).state = taskRunning → (s.tasks t).onRq = true ∨ ∃ c, (s.rqs c).curr = some t

variable {s s' : State} {q : QIdx → List Nat} {c t : Nat}

theorem Smp.sound (hi : Smp s q) : Sound s q := ⟨hi.lists, hi.rq, hi.task⟩

theorem Smp.placed (hi : Smp s q) (hr : NoneLost s) : Placed s q :=
  ⟨hi.lists, hi.cpu, fun t ht => (hr t ht).imp_left (hi.lists.onRq t).1⟩

theorem BitsBelow.set {bitmap : Bitmap} (h : BitsBelow bitmap) (p : Fin 140) : BitsBelow (setPrioBit bitmap (p : Nat)) := by
  intro r hr hlt
  have hne : (p : Nat) ≠ r := by
    have := p.isLt
    omega
  rw [testPrioBit_set, decide_eq_false hne, h r hr hlt]
  rfl

theorem BitsBelow.clear {bitmap : Bitmap} (h : BitsBelow bitmap) (p : Fin 140) :
    BitsBelow (clearPrioBit bitmap (p : Nat)) := by
  intro r hr hlt
  rw [testPrioBit_clear, h r hr hlt, Bool.and_false]

theorem TaskOk.congr {task task' : Task} (h : TaskOk task) (hp : task'.prio = task.prio)
    (hs : task'.staticPrio = task.staticPrio) (hr : task'.rtPriority = task.rtPriority)
    (hpol : task'.policy = task.policy) : TaskOk task' := by
  refine ⟨?_, ?_⟩
  · unfold PrioOk
    rw [hp]
    exact h.prio
  · unfold effectivePrio
    rw [hs, hr, hpol]
    exact h.effective

/-! ## The primitive steps -/

/-- A list edited by a step that changes no task's priorities. -/
theorem Sound.edit (hi : Sound s q) {q' : QIdx → List Nat} (hlists : Lists s' q')
    (htasks : ∀ u, ∃ b slice, s'.tasks u = { s.tasks u with onRq := b, timeSlice := slice })
    (hrq : ∀ d, RqOk (s'.rqs d) d) : Sound s' q' := by
  refine ⟨hlists, hrq, fun u => ?_⟩
  obtain ⟨b, slice, h⟩ := htasks u
  rw [h]
  exact (hi.task u).congr rfl rfl rfl rfl

theorem Sound.enqueueTask (hi : Sound s q) (hoff : (s.tasks t).onRq = false) (c : Nat) {p : Fin 140}
    (hp : (s.tasks t).prio = (p : Nat)) : Sound (Sched.enqueueTask s c t)
      (Function.update q ⟨c, (s.rqs c).active, p⟩ (q ⟨c, (s.rqs c).active, p⟩ ++ [t])) := by
  refine hi.edit (hi.lists.enqueueTask hoff c hp) (fun u => ⟨_, _, enqueueTask_tasks s c t u⟩) fun d => ?_
  obtain ⟨h1, h2, h3, h4⟩ := hi.rq d
  by_cases hd : d = c
  · subst hd
    simp only [Sched.enqueueTask, Function.update_self, hp]
    exact ⟨h1, h2, h3.set p, h4⟩
  · simp only [Sched.enqueueTask, Function.update_of_ne hd]
    exact ⟨h1, h2, h3, h4⟩

theorem Sound.expireTask (hi : Sound s q) (hoff : (s.tasks t).onRq = false) (c : Nat) {p : Fin 140}
    (hp : (s.tasks t).prio = (p : Nat)) : Sound (Sched.expireTask s c t)
      (Function.update q ⟨c, (s.rqs c).expired, p⟩ (q ⟨c, (s.rqs c).expired, p⟩ ++ [t])) := by
  refine hi.edit (hi.lists.expireTask hoff c hp) (fun u => ⟨_, _, expireTask_tasks s c t u⟩) fun d => ?_
  obtain ⟨h1, h2, h3, h4⟩ := hi.rq d
  by_cases hd : d = c
  · subst hd
    simp only [Sched.expireTask, Function.update_self, hp]
    exact ⟨h1, h2, h3, h4.set p⟩
  · simp only [Sched.expireTask, Function.update_of_ne hd]
    exact ⟨h1, h2, h3, h4⟩

theorem Sound.dequeueTask (hi : Sound s q) {i : QIdx} (ht : t ∈ q i) (c : Nat) :
    Sound (Sched.dequeueTask s c t) (Function.update q i ((q i).erase t)) := by
  obtain ⟨p, hp⟩ := (hi.task t).prio.fin
  refine hi.edit (hi.lists.dequeueTask ht c) (fun u => ⟨_, _, dequeueTask_tasks s c t u⟩) fun d => ?_
  obtain ⟨h1, h2, h3, h4⟩ := hi.rq d
  by_cases hd : d = c
  · subst hd
    simp only [Sched.dequeueTask, Function.update_self, hp]
    refine ⟨h1, h2, ?_, h4⟩
    show BitsBelow (if _ then _ else _)
    split
    · exact h3.clear p
    · exact h3
  · simp only [Sched.dequeueTask, Function.update_of_ne hd]
    exact ⟨h1, h2, h3, h4⟩

theorem Sound.swapIfEmpty (hi : Sound s q) (c : Nat) : Sound (Sched.swapIfEmpty s c) q := by
  refine ⟨hi.lists.swapIfEmpty c, fun d => ?_, by rw [swapIfEmpty_tasks]; exact hi.task⟩
  obtain ⟨h1, h2, h3, h4⟩ := hi.rq d
  unfold Sched.swapIfEmpty
  split
  · by_cases hd : d = c
    · subst hd
      simp only [swapArrays, State.setRq, Function.update_self]
      exact ⟨h1, h2, h4, h3⟩
    · simp only [swapArrays, State.setRq, Function.update_of_ne hd]
      exact ⟨h1, h2, h3, h4⟩
  · exact ⟨h1, h2, h3, h4⟩

theorem Sound.setTask (hi : Sound s q) (t : Nat) {task : Task} (htask : TaskOk task)
    (hon : task.onRq = (s.tasks t).onRq) : Sound (s.setTask t task) q := by
  refine ⟨hi.lists.setTask hon, hi.rq, fun u => ?_⟩
  simp only [State.setTask, Function.update_apply]
  split
  · exact htask
  · exact hi.task u

/-- **A task appended to a list of its own CPU**, by a step that moves nothing else. -/
theorem Smp.append (hi : Smp s q) {arr : Bool} {p : Fin 140} (hcpu : (s.tasks t).cpu = c)
    (hs : Sound s' (Function.update q ⟨c, arr, p⟩ (q ⟨c, arr, p⟩ ++ [t])))
    (hcpus : ∀ u, (s'.tasks u).cpu = (s.tasks u).cpu) (hcurr : ∀ d, (s'.rqs d).curr = (s.rqs d).curr) :
    Smp s' (Function.update q ⟨c, arr, p⟩ (q ⟨c, arr, p⟩ ++ [t])) := by
  refine ⟨hs.lists, ?_, ?_, hs.rq, hs.task⟩
  · intro i u hu
    rw [hcpus u]
    rcases mem_update_append.1 hu with hmem | ⟨hmem, rfl⟩
    · exact hi.cpu i u hmem
    · rw [List.mem_singleton.1 hmem]
      exact hcpu
  · intro d u hu
    rw [hcpus u]
    rw [hcurr d] at hu
    exact hi.curr d u hu

theorem enqueueTask_curr (s : State) (c t d : Nat) :
    ((enqueueTask s c t).rqs d).curr = (s.rqs d).curr := by
  simp only [enqueueTask, Function.update_apply]
  split
  · rename_i h
    rw [h]
  · rfl

theorem expireTask_curr (s : State) (c t d : Nat) :
    ((expireTask s c t).rqs d).curr = (s.rqs d).curr := by
  simp only [expireTask, Function.update_apply]
  split
  · rename_i h
    rw [h]
  · rfl

theorem Smp.enqueueTask (hi : Smp s q) (hoff : (s.tasks t).onRq = false) (hcpu : (s.tasks t).cpu = c) :
    ∃ q', Smp (Sched.enqueueTask s c t) q' := by
  obtain ⟨p, hp⟩ := (hi.task t).prio.fin
  refine ⟨_, hi.append hcpu (hi.sound.enqueueTask hoff c hp) (fun u => ?_) (enqueueTask_curr s c t)⟩
  rw [enqueueTask_tasks]

theorem Smp.expireTask (hi : Smp s q) (hoff : (s.tasks t).onRq = false) (hcpu : (s.tasks t).cpu = c) :
    ∃ q', Smp (Sched.expireTask s c t) q' := by
  obtain ⟨p, hp⟩ := (hi.task t).prio.fin
  refine ⟨_, hi.append hcpu (hi.sound.expireTask hoff c hp) (fun u => ?_) (expireTask_curr s c t)⟩
  rw [expireTask_tasks]

theorem Smp.dequeueTask (hi : Smp s q) (hon : (s.tasks t).onRq = true) (c : Nat) :
    ∃ q', Smp (Sched.dequeueTask s c t) q' := by
  obtain ⟨i, ht⟩ := (hi.lists.onRq t).1 hon
  have hs := hi.sound.dequeueTask ht c
  refine ⟨_, hs.lists, ?_, ?_, hs.rq, hs.task⟩
  · intro j u hu
    rw [dequeueTask_tasks]
    exact hi.cpu j u (mem_of_update_erase hu)
  · intro d u hu
    rw [dequeueTask_tasks]
    rw [(dequeueTask_curr s c t d).1] at hu
    exact hi.curr d u hu

theorem Smp.swapIfEmpty (hi : Smp s q) (c : Nat) : Smp (Sched.swapIfEmpty s c) q := by
  have hs := hi.sound.swapIfEmpty c
  refine ⟨hs.lists, ?_, ?_, hs.rq, hs.task⟩
  · rw [swapIfEmpty_tasks]
    exact hi.cpu
  · intro d u hu
    rw [swapIfEmpty_tasks]
    rw [(swapIfEmpty_curr s c d).1] at hu
    exact hi.curr d u hu

/-- A change of one task's fields that its place does not depend on. -/
theorem Smp.setTask (hi : Smp s q) (t : Nat) {task : Task} (htask : TaskOk task)
    (hon : task.onRq = (s.tasks t).onRq) (hcpu : task.cpu = (s.tasks t).cpu) : Smp (s.setTask t task) q := by
  have hcpu' : ∀ u, ((s.setTask t task).tasks u).cpu = (s.tasks u).cpu := by
    intro u
    simp only [State.setTask, Function.update_apply]
    split
    · rename_i hu
      rw [hu]
      exact hcpu
    · rfl
  have hs := hi.sound.setTask t htask hon
  refine ⟨hs.lists, ?_, ?_, hs.rq, hs.task⟩
  · intro i u hu
    rw [hcpu' u]
    exact hi.cpu i u hu
  · intro d u hu
    rw [hcpu' u]
    exact hi.curr d u hu

/-! ## `schedule_impl` -/

/-- **The bit the search returns is set.** -/
theorem findFrom_some {bitmap : Bitmap} {n i : Nat} {prio : Int} (h : findFrom bitmap n i = some prio) :
    ∃ p : Nat, prio = (p : Nat) ∧ p < (i + n) * 64 ∧ testPrioBit bitmap (p : Nat) = true := by
  rcases findFrom_spec bitmap n i with ⟨hnone, -⟩ | ⟨p, hp, -, hlt, hbit, -⟩
  · rw [hnone] at h
    cases h
  · rw [hp] at h
    cases h
    exact ⟨p, rfl, hlt, hbit⟩

/-- **`pick_next_task` returns a task that is queued on the CPU.** -/
theorem Sound.firstTask (hi : Sound s q) {next : Nat} (h : Sched.firstTask s c = some next) :
    ∃ p, next ∈ q ⟨c, (s.rqs c).active, p⟩ := by
  simp only [Sched.firstTask, (hi.rq c).idle] at h
  cases hf : findFirstSetBit (s.rqs c).activeBitmap with
  | none =>
    rw [hf] at h
    cases h
  | some prio =>
    rw [hf] at h
    obtain ⟨p, rfl, hlt, hbit⟩ := findFrom_some hf
    have hp : p < 140 := by
      by_cases hp : p < 140
      · exact hp
      · rw [(hi.rq c).activeBits p (by omega) (by omega)] at hbit
        cases hbit
    have hring := hi.lists.rings.ring ⟨c, (s.rqs c).active, ⟨p, hp⟩⟩
    refine ⟨⟨p, hp⟩, ?_⟩
    revert hring
    generalize q ⟨c, (s.rqs c).active, ⟨p, hp⟩⟩ = xs
    intro hring
    simp only at h
    by_cases hempty : s.links.listEmpty (.queue c (s.rqs c).active (p : Nat)) = true
    · rw [if_pos hempty] at h
      cases h
    · rw [if_neg hempty] at h
      cases xs with
      | nil => exact absurd (hring.listEmpty.2 rfl) hempty
      | cons x xs =>
        rw [show s.links.next (.queue c (s.rqs c).active (p : Nat)) = .task x from hring.next_cons] at h
        cases h
        exact List.mem_cons_self

theorem Sound.setCurr (hi : Sound s q) (c : Nat) (next : Option Nat) : Sound (Sched.setCurr s c next) q := by
  refine ⟨hi.lists.setRq c _, fun d => ?_, hi.task⟩
  obtain ⟨h1, h2, h3, h4⟩ := hi.rq d
  by_cases hd : d = c
  · subst hd
    simp only [Sched.setCurr, State.setRq, Function.update_self]
    exact ⟨h1, h2, h3, h4⟩
  · simp only [Sched.setCurr, State.setRq, Function.update_of_ne hd]
    exact ⟨h1, h2, h3, h4⟩

theorem Smp.setCurr (hi : Smp s q) {next : Option Nat} (h : ∀ t, next = some t → (s.tasks t).cpu = c) :
    Smp (Sched.setCurr s c next) q := by
  have hs := hi.sound.setCurr c next
  refine ⟨hs.lists, hi.cpu, ?_, hs.rq, hs.task⟩
  intro d u hu
  by_cases hd : d = c
  · subst hd
    simp only [Sched.setCurr, State.setRq, Function.update_self, (hi.rq d).idle] at hu
    show (s.tasks u).cpu = d
    split at hu
    · split at hu
      · rename_i prev hprev
        rw [hu] at hprev
        exact hi.curr d u hprev
      · cases hu
    · exact h u hu
  · simp only [Sched.setCurr, State.setRq, Function.update_of_ne hd] at hu
    exact hi.curr d u hu

/-- **What queueing the previous task again does to the tasks**: a runnable previous task is queued afterwards. -/
theorem requeuePrev_tasks (s : State) (c u : Nat) :
    ((requeuePrev s c).tasks u).state = (s.tasks u).state ∧ ((requeuePrev s c).tasks u).cpu = (s.tasks u).cpu ∧
      ((s.tasks u).onRq = true → ((requeuePrev s c).tasks u).onRq = true) ∧
      ((s.rqs c).curr = some u → some u ≠ (s.rqs c).idle → (s.tasks u).state = taskRunning →
        ((requeuePrev s c).tasks u).onRq = true) := by
  unfold requeuePrev
  cases hcurr : (s.rqs c).curr with
  | none => exact ⟨rfl, rfl, id, fun h => (by cases h)⟩
  | some prev =>
    simp only
    by_cases hidle : some prev ≠ (s.rqs c).idle
    · rw [if_pos hidle]
      by_cases hrun : (s.tasks prev).state = taskRunning
      · rw [if_pos hrun]
        by_cases hslice : (s.tasks prev).timeSlice = 0
        · rw [if_pos hslice, expireTask_tasks]
          by_cases hu : u = prev
          · subst hu
            simp [State.setTask]
          · simp only [State.setTask, Function.update_of_ne hu, if_neg hu]
            refine ⟨trivial, trivial, id, fun h => ?_⟩
            cases h
            exact absurd rfl hu
        · rw [if_neg hslice, enqueueTask_tasks]
          by_cases hu : u = prev
          · simp [hu]
          · simp only [if_neg hu]
            refine ⟨trivial, trivial, id, fun h => ?_⟩
            cases h
            exact absurd rfl hu
      · rw [if_neg hrun]
        refine ⟨rfl, rfl, id, fun h _ hr => ?_⟩
        cases h
        exact absurd hr hrun
    · rw [if_neg hidle]
      refine ⟨rfl, rfl, id, fun h hi => ?_⟩
      cases h
      exact absurd hi hidle

theorem requeuePrev_curr (s : State) (c d : Nat) : ((requeuePrev s c).rqs d).curr = (s.rqs d).curr := by
  unfold requeuePrev
  split
  · rfl
  · split
    · split
      · split
        · exact expireTask_curr _ c _ d
        · exact enqueueTask_curr s c _ d
      · rfl
    · rfl

theorem Smp.putPrev (hi : Smp s q) (c : Nat) : ∃ q', Smp (Sched.putPrev s c) q' := by
  obtain ⟨-, -, -, h | ⟨prev, -, -, hon, h⟩⟩ := putPrev_spec s c
  · rw [h]
    exact ⟨q, hi⟩
  · rw [h]
    exact hi.dequeueTask hon c

theorem Smp.requeuePrev (hi : Smp s q) (hoff : ∀ prev, (s.rqs c).curr = some prev → (s.tasks prev).onRq = false) :
    ∃ q', Smp (Sched.requeuePrev s c) q' := by
  unfold Sched.requeuePrev
  cases hcurr : (s.rqs c).curr with
  | none => exact ⟨q, hi⟩
  | some prev =>
    simp only
    split
    · split
      · split
        · have htask : TaskOk { s.tasks prev with timeSlice := 100 } := (hi.task prev).congr rfl rfl rfl rfl
          refine (hi.setTask prev htask rfl rfl).expireTask ?_ ?_
          · simp only [State.setTask, Function.update_self]
            exact hoff prev hcurr
          · simp only [State.setTask, Function.update_self]
            exact hi.curr c prev hcurr
        · exact hi.enqueueTask (hoff prev hcurr) (hi.curr c prev hcurr)
      · exact ⟨q, hi⟩
    · exact ⟨q, hi⟩

/-- **The previous task is off the queues** when the next one is picked, and it alone has moved. -/
theorem Smp.putPrev_tasks (hi : Smp s q) (c u : Nat) :
    ((Sched.putPrev s c).tasks u).state = (s.tasks u).state ∧
      ((s.rqs c).curr = some u → ((Sched.putPrev s c).tasks u).onRq = false) ∧
      ((s.rqs c).curr ≠ some u → ((Sched.putPrev s c).tasks u).onRq = (s.tasks u).onRq) := by
  obtain ⟨-, -, hprev, hspec⟩ := putPrev_spec s c
  have hidle : ∀ prev : Nat, some prev ≠ (s.rqs c).idle := by
    intro prev
    rw [(hi.rq c).idle]
    exact fun h => by cases h
  refine ⟨?_, fun h => ?_, fun h => ?_⟩
  · rcases hspec with h | ⟨prev, -, -, -, h⟩
    · rw [h]
    · rw [h, dequeueTask_tasks]
  · rw [hprev u h (hidle u)]
  · rcases hspec with hs | ⟨prev, hcurr, -, -, hs⟩
    · rw [hs]
    · rw [hs, dequeueTask_tasks]
      have hne : u ≠ prev := by
        intro heq
        exact h (heq ▸ hcurr)
      simp only [if_neg hne]

/-- `schedule_impl` leaves the tasks' states as they are. -/
theorem scheduleImpl_state (s : State) (c u : Nat) : ((scheduleImpl s c).tasks u).state = (s.tasks u).state := by
  have hput : ((putPrev s c).tasks u).state = (s.tasks u).state := by
    obtain ⟨-, -, -, h | ⟨prev, -, -, -, h⟩⟩ := putPrev_spec s c
    · rw [h]
    · rw [h, dequeueTask_tasks]
  have hreq := (requeuePrev_tasks (swapIfEmpty (putPrev s c) c) c u).1
  rw [swapIfEmpty_tasks, hput] at hreq
  exact hreq

theorem scheduleImpl_curr_of_ne (s : State) {c d : Nat} (h : d ≠ c) :
    ((scheduleImpl s c).rqs d).curr = (s.rqs d).curr := by
  have hput : ((putPrev s c).rqs d).curr = (s.rqs d).curr := by
    obtain ⟨-, -, -, h | ⟨prev, -, -, -, h⟩⟩ := putPrev_spec s c
    · rw [h]
    · rw [h]
      exact (dequeueTask_curr s c prev d).1
  simp only [scheduleImpl, setCurr, State.setRq, Function.update_of_ne h]
  rw [requeuePrev_curr]
  exact (swapIfEmpty_curr _ c d).1.trans hput

theorem Smp.scheduleImpl (hi : Smp s q) (hr : NoneLost s) (c : Nat) :
    (∃ q', Smp (Sched.scheduleImpl s c) q') ∧ NoneLost (Sched.scheduleImpl s c) := by
  obtain ⟨hcurr1, -, -, -⟩ := putPrev_spec s c
  obtain ⟨q1, hi1⟩ := hi.putPrev c
  have hi2 := hi1.swapIfEmpty c
  have hcurr2 : ((Sched.swapIfEmpty (Sched.putPrev s c) c).rqs c).curr = (s.rqs c).curr :=
    (swapIfEmpty_curr _ c c).1.trans hcurr1
  have htasks2 := swapIfEmpty_tasks (Sched.putPrev s c) c
  have hidle2 := (hi2.rq c).idle
  obtain ⟨q3, hi3⟩ := hi2.requeuePrev fun prev hp => by
    rw [htasks2]
    rw [hcurr2] at hp
    exact (hi.putPrev_tasks c prev).2.1 hp
  refine ⟨⟨q3, hi3.setCurr fun t ht => ?_⟩, ?_⟩
  · obtain ⟨p, hp⟩ := hi2.sound.firstTask ht
    rw [(requeuePrev_tasks _ c t).2.1]
    exact hi2.cpu _ t hp
  · intro u hu
    have hstate : (s.tasks u).state = taskRunning := (scheduleImpl_state s c u).symm.trans hu
    obtain ⟨-, -, hkeep, hprev⟩ := requeuePrev_tasks (Sched.swapIfEmpty (Sched.putPrev s c) c) c u
    by_cases hcu : (s.rqs c).curr = some u
    · -- the previous task is runnable, so it was queued again
      refine .inl (hprev (hcurr2.trans hcu) ?_ ?_)
      · rw [hidle2]
        exact fun h => by cases h
      · rw [htasks2, (hi.putPrev_tasks c u).1]
        exact hstate
    · rcases hr u hstate with hon | ⟨d, hd⟩
      · refine .inl (hkeep ?_)
        rw [htasks2, (hi.putPrev_tasks c u).2.2 hcu]
        exact hon
      · -- it runs on another CPU, whose run queue `schedule_impl` does not touch
        have hdc : d ≠ c := fun h => hcu (h ▸ hd)
        exact .inr ⟨d, (scheduleImpl_curr_of_ne s hdc).trans hd⟩

/-! ## Wakeups -/

theorem Smp.schedEnqueueTask (hi : Smp s q) (hr : ∀ u, u ≠ t → (s.tasks u).state = taskRunning →
      (s.tasks u).onRq = true ∨ ∃ c, (s.rqs c).curr = some u) (hok : (s.tasks t).onRq = true ∨ (s.tasks t).cpu = 0) :
    (∃ q', Smp (Sched.schedEnqueueTask s t) q') ∧ NoneLost (Sched.schedEnqueueTask s t) := by
  unfold Sched.schedEnqueueTask
  cases hon : (s.tasks t).onRq with
  | true =>
    rw [if_pos rfl]
    refine ⟨⟨q, hi⟩, fun u hu => ?_⟩
    by_cases hut : u = t
    · exact .inl (hut ▸ hon)
    · exact hr u hut hu
  | false =>
    have hcpu : (s.tasks t).cpu = 0 := by
      rcases hok with h | h
      · rw [hon] at h
        cases h
      · exact h
    rw [if_neg Bool.false_ne_true]
    refine ⟨hi.enqueueTask hon hcpu, fun u hu => ?_⟩
    rw [enqueueTask_tasks] at hu ⊢
    by_cases hut : u = t
    · exact .inl (by simp only [if_pos hut])
    · simp only [if_neg hut, enqueueTask_curr]
      exact hr u hut hu

theorem Smp.wakeUpProcess (hi : Smp s q) (hr : NoneLost s) (hok : (s.tasks t).onRq = true ∨ (s.tasks t).cpu = 0) :
    (∃ q', Smp (Sched.wakeUpProcess s t) q') ∧ NoneLost (Sched.wakeUpProcess s t) := by
  have htask : TaskOk { s.tasks t with state := taskRunning } := (hi.task t).congr rfl rfl rfl rfl
  refine (hi.setTask t htask rfl rfl).schedEnqueueTask ?_ ?_
  · intro u hut hu
    simp only [State.setTask, Function.update_of_ne hut] at hu ⊢
    exact hr u hu
  · simp only [State.setTask, Function.update_self]
    exact hok

theorem Smp.schedWakeUp (hi : Smp s q) (hr : NoneLost s)
    (hok : (s.tasks t).state ≠ taskRunning → (s.tasks t).onRq = false) :
    (∃ q', Smp (Sched.schedWakeUp s t) q') ∧ NoneLost (Sched.schedWakeUp s t) := by
  unfold Sched.schedWakeUp
  by_cases hrun : (s.tasks t).state ≠ taskRunning
  · rw [if_pos hrun]
    have htask : TaskOk { s.tasks t with
        state := taskRunning
        prio := effectivePrio (s.tasks t)
        timeSlice := calculateTimeslice { s.tasks t with state := taskRunning, prio := effectivePrio (s.tasks t) } } :=
      ⟨(hi.task t).effective, (hi.task t).effective⟩
    refine ⟨(hi.setTask t htask rfl rfl).enqueueTask ?_ ?_, fun u hu => ?_⟩
    · simp only [State.setTask, Function.update_self]
      exact hok hrun
    · simp only [State.setTask, Function.update_self]
    · rw [enqueueTask_tasks] at hu ⊢
      by_cases hut : u = t
      · exact .inl (by simp only [if_pos hut])
      · simp only [if_neg hut, enqueueTask_curr, State.setTask, Function.update_of_ne hut] at hu ⊢
        exact hr u hu
  · rw [if_neg hrun]
    exact ⟨⟨q, hi⟩, hr⟩

/-! ## Migration -/

theorem filterMap_task (xs : List Nat) : (xs.map Node.task).filterMap Node.task? = xs := by
  rw [List.filterMap_map]
  exact List.filterMap_some

/-- **What `find_migratable` finds** is queued on the source's active array. -/
theorem Lists.findMigratable (hl : Lists s q) {src dst fuel : Nat} : ∀ {n : Nat}, n ≤ 140 →
    Sched.findMigratable s src dst fuel n = some (some t) →
      (∃ p, t ∈ q ⟨src, (s.rqs src).active, p⟩) ∧ migratable s src dst t = true
  | 0, _, h => by cases h
  | n + 1, hn, h => by
    simp only [Sched.findMigratable] at h
    split at h
    · exact hl.findMigratable (Nat.le_of_succ_le hn) h
    · split at h
      · cases h
      · rename_i nodes hnodes
        have hring := hl.rings.ring ⟨src, (s.rqs src).active, ⟨n, hn⟩⟩
        have heq : nodes = (q ⟨src, (s.rqs src).active, ⟨n, hn⟩⟩).map Node.task := hring.entries_eq hnodes
        rw [heq, filterMap_task] at h
        split at h
        · rename_i u hu
          cases h
          exact ⟨⟨_, List.mem_of_find?_eq_some hu⟩, List.find?_some hu⟩
        · exact hl.findMigratable (Nat.le_of_succ_le hn) h

theorem countMigration_curr (s : State) (c d : Nat) : ((countMigration s c).rqs d).curr = (s.rqs d).curr := by
  simp only [countMigration, State.setRq, Function.update_apply]
  split
  · rename_i hd
    rw [hd]
  · rfl

theorem Sound.countMigration (hi : Sound s q) (c : Nat) : Sound (Sched.countMigration s c) q := by
  refine ⟨hi.lists.setRq c _, fun d => ?_, hi.task⟩
  obtain ⟨h1, h2, h3, h4⟩ := hi.rq d
  by_cases hd : d = c
  · subst hd
    simp only [Sched.countMigration, State.setRq, Function.update_self]
    exact ⟨h1, h2, h3, h4⟩
  · simp only [Sched.countMigration, State.setRq, Function.update_of_ne hd]
    exact ⟨h1, h2, h3, h4⟩

theorem Smp.countMigration (hi : Smp s q) (c : Nat) : Smp (Sched.countMigration s c) q := by
  have hs := hi.sound.countMigration c
  refine ⟨hs.lists, hi.cpu, ?_, hs.rq, hs.task⟩
  intro d u hu
  rw [countMigration_curr] at hu
  exact hi.curr d u hu

/-- A task that is on no queue and on no CPU changes its CPU. -/
theorem Smp.setCpu (hi : Smp s q) (hoff : (s.tasks t).onRq = false) (hcurr : ∀ c, (s.rqs c).curr ≠ some t) (d : Nat) :
    Smp (s.setTask t { s.tasks t with cpu := d }) q := by
  refine ⟨hi.lists.setTask rfl, ?_, ?_, hi.rq, ?_⟩
  · intro i u hu
    have hut : u ≠ t := by
      rintro rfl
      rw [(hi.lists.onRq u).2 ⟨i, hu⟩] at hoff
      cases hoff
    simp only [State.setTask, Function.update_of_ne hut]
    exact hi.cpu i u hu
  · intro c u hu
    have hut : u ≠ t := fun h => hcurr c (h ▸ hu)
    simp only [State.setTask, Function.update_of_ne hut]
    exact hi.curr c u hu
  · intro u
    simp only [State.setTask, Function.update_apply]
    split
    · exact (hi.task t).congr rfl rfl rfl rfl
    · exact hi.task u

/-- **`task_migrate` moves a queued task that is not current**, and loses none. -/
theorem Smp.taskMigrate (hi : Smp s q) (hr : NoneLost s) {src : Nat} (dst : Nat) {i : QIdx} (ht : t ∈ q i)
    (hsrc : i.cpu = src) (hcurr : (s.rqs src).curr ≠ some t) :
    (∃ q', Smp (Sched.taskMigrate s t src dst) q') ∧ NoneLost (Sched.taskMigrate s t src dst) := by
  have hon : (s.tasks t).onRq = true := (hi.lists.onRq t).2 ⟨i, ht⟩
  have hno : ∀ c, (s.rqs c).curr ≠ some t := by
    intro c hc
    have h1 := hi.curr c t hc
    have h2 := hi.cpu i t ht
    exact hcurr (by rw [← hsrc, ← h2, h1]; exact hc)
  unfold Sched.taskMigrate
  simp only [hon, if_true]
  obtain ⟨q1, hi1⟩ := hi.dequeueTask hon src
  have ht1 : ((Sched.dequeueTask s src t).tasks t) = { s.tasks t with onRq := false } := by
    rw [dequeueTask_tasks, if_pos rfl]
  have hdst := (hi1.rq dst).cpu
  rw [hdst]
  have hi2 := hi1.setCpu (t := t) (by rw [ht1]) (fun c => by rw [(dequeueTask_curr s src t c).1]; exact hno c) dst
  obtain ⟨q3, hi3⟩ := hi2.enqueueTask (t := t) (c := dst)
    (by simp only [State.setTask, Function.update_self, ht1]) (by simp only [State.setTask, Function.update_self])
  refine ⟨⟨q3, (hi3.countMigration dst).countMigration src⟩, ?_⟩
  intro u hu
  have htasks : ∀ (s : State) (c : Nat), (Sched.countMigration s c).tasks = s.tasks := fun _ _ => rfl
  rw [htasks, htasks, enqueueTask_tasks] at hu ⊢
  by_cases hut : u = t
  · exact .inl (by simp only [if_pos hut])
  · have htask : (State.setTask (Sched.dequeueTask s src t) t
        { (Sched.dequeueTask s src t).tasks t with cpu := dst }).tasks u = s.tasks u := by
      simp only [State.setTask, Function.update_of_ne hut, dequeueTask_tasks, if_neg hut]
    simp only [if_neg hut] at hu ⊢
    rw [htask] at hu ⊢
    rcases hr u hu with h | h
    · exact .inl h
    · obtain ⟨d, hd⟩ := h
      refine .inr ⟨d, ?_⟩
      rw [countMigration_curr, countMigration_curr, enqueueTask_curr]
      exact (dequeueTask_curr s src t d).1.trans hd

/-- **The pull loop loses no task.** -/
theorem Smp.pullTasks {src this fuel : Nat} : ∀ {n : Nat} {s s' : State} {q : QIdx → List Nat}, Smp s q → NoneLost s →
    Sched.pullTasks src this fuel n s = some s' → (∃ q', Smp s' q') ∧ NoneLost s'
  | 0, s, s', q, hi, hr, h => by
    cases h
    exact ⟨⟨q, hi⟩, hr⟩
  | n + 1, s, s', q, hi, hr, h => by
    simp only [Sched.pullTasks] at h
    split at h
    · cases h
      exact ⟨⟨q, hi⟩, hr⟩
    · split at h
      · cases h
        exact ⟨⟨q, hi⟩, hr⟩
      · split at h
        · cases h
        · cases h
          exact ⟨⟨q, hi⟩, hr⟩
        · rename_i t hfind
          obtain ⟨⟨p, ht⟩, hmig⟩ := hi.lists.findMigratable (Nat.le_refl 140) hfind
          have hcurr : (s.rqs src).curr ≠ some t := by
            simp only [migratable, Bool.and_eq_true, decide_eq_true_eq] at hmig
            exact fun heq => hmig.1.1.1 heq.symm
          obtain ⟨⟨q1, hi1⟩, hr1⟩ := hi.taskMigrate hr this ht rfl hcurr
          exact Smp.pullTasks hi1 hr1 h

/-! ## Runs -/

inductive Ev where
  | schedEnqueueTask (t : Nat)
  | schedWakeUp (t : Nat)
  | wakeUpProcess (t : Nat)
  | setState (c state : Nat)              -- the current task of CPU `c`, on its way to sleep or back
  | schedule (c : Nat)
  | tick (c : Nat)                        -- the slice of the current task
  | balance (this src fuel : Nat)

/-- One step.  A CPU balances against another one, and the walks of its pull loop come to an end. -/
def smpStep (s : State) : Ev → Option State
  | .schedEnqueueTask t => some (schedEnqueueTask s t)
  | .schedWakeUp t => some (schedWakeUp s t)
  | .wakeUpProcess t => some (wakeUpProcess s t)
  | .setState c state =>
    match (s.rqs c).curr with
    | none => none
    | some t => some (s.setTask t { s.tasks t with state := state })
  | .schedule c => some (scheduleImpl s c)
  | .tick c =>
    match (s.rqs c).curr with
    | none => some s
    | some t => some (s.setTask t { s.tasks t with timeSlice := (s.tasks t).timeSlice - 1 })
  | .balance this src fuel => if this = src then none else pullTasks src this fuel lbPullMax s

/-- After boot: no task runs yet, and every task has the priorities `task_create` gave it. -/
def smpMachine : Machine State Ev where
  init s := Boot s ∧ ∀ t, (s.tasks t).state ≠ taskRunning ∧ TaskOk (s.tasks t)
  step := smpStep

/-- **The wakeup finds the task where it expects it**: `sched_wake_up` a sleeping task that is off the queues, and the other
two a task of the boot processor (or one that is queued already, which they leave alone). -/
def EvOk (s : State) : Ev → Prop
  | .schedEnqueueTask t => (s.tasks t).onRq = true ∨ (s.tasks t).cpu = 0
  | .schedWakeUp t => (s.tasks t).state ≠ taskRunning → (s.tasks t).onRq = false
  | .wakeUpProcess t => (s.tasks t).onRq = true ∨ (s.tasks t).cpu = 0
  | .setState _ _ | .schedule _ | .tick _ | .balance _ _ _ => True

instance (s : State) : ∀ a, Decidable (EvOk s a)
  | .schedEnqueueTask _ | .wakeUpProcess _ => inferInstanceAs (Decidable (_ ∨ _))
  | .schedWakeUp _ => inferInstanceAs (Decidable (_ → _))
  | .setState _ _ | .schedule _ | .tick _ | .balance _ _ _ => inferInstanceAs (Decidable True)

theorem Smp.init (h : smpMachine.init s) : Smp s fun _ => [] := by
  obtain ⟨hboot, htasks⟩ := h
  refine ⟨hboot.lists, ?_, ?_, ?_, fun t => (htasks t).2⟩
  · intro i t ht
    cases ht
  · intro c t ht
    rw [hboot.rqs c] at ht
    cases ht
  · intro c
    have hbits : BitsBelow fun _ => 0 := by
      intro p _ _
      simp [testPrioBit]
    rw [hboot.rqs c]
    exact ⟨rfl, rfl, hbits, hbits⟩

/-- A change of the current task's fields that its place does not depend on. -/
theorem Smp.editCurr (hi : Smp s q) (hr : NoneLost s) (hcurr : (s.rqs c).curr = some t) {task : Task}
    (htask : TaskOk task) (hon : task.onRq = (s.tasks t).onRq) (hcpu : task.cpu = (s.tasks t).cpu) :
    (∃ q, Smp (s.setTask t task) q) ∧ NoneLost (s.setTask t task) := by
  refine ⟨⟨q, hi.setTask t htask hon hcpu⟩, fun u hu => ?_⟩
  by_cases hut : u = t
  · exact .inr ⟨c, hut ▸ hcurr⟩
  · simp only [State.setTask, Function.update_of_ne hut] at hu ⊢
    exact hr u hu

/-- **Every step that meets the condition keeps the tasks in place.** -/
theorem smpStep_inv {a : Ev} (h : (∃ q, Smp s q) ∧ NoneLost s) (hok : EvOk s a) (hs : smpStep s a = some s') :
    (∃ q, Smp s' q) ∧ NoneLost s' := by
  obtain ⟨⟨q, hi⟩, hr⟩ := h
  cases a with
  | schedEnqueueTask t =>
    cases hs
    exact hi.schedEnqueueTask (fun u _ hu => hr u hu) hok
  | schedWakeUp t =>
    cases hs
    exact hi.schedWakeUp hr hok
  | wakeUpProcess t =>
    cases hs
    exact hi.wakeUpProcess hr hok
  | schedule c =>
    cases hs
    exact hi.scheduleImpl hr c
  | setState c state =>
    simp only [smpStep] at hs
    cases hcurr : (s.rqs c).curr with
    | none =>
      rw [hcurr] at hs
      cases hs
    | some t =>
      rw [hcurr] at hs
      cases hs
      exact hi.editCurr hr hcurr ((hi.task t).congr rfl rfl rfl rfl) rfl rfl
  | tick c =>
    simp only [smpStep] at hs
    cases hcurr : (s.rqs c).curr with
    | none =>
      rw [hcurr] at hs
      cases hs
      exact ⟨⟨q, hi⟩, hr⟩
    | some t =>
      rw [hcurr] at hs
      cases hs
      exact hi.editCurr hr hcurr ((hi.task t).congr rfl rfl rfl rfl) rfl rfl
  | balance this src fuel =>
    simp only [smpStep] at hs
    split at hs
    · cases hs
    · exact Smp.pullTasks hi hr hs

/-- **No runnable task is lost or queued twice** in a run of such steps. -/
theorem placed_of_run (l : List Ev) (s s' : State) (h0 : smpMachine.init s) (h : smpMachine.RunOk EvOk s l s') :
    ∃ q, Placed s' q := by
  have hinit : (∃ q, Smp s q) ∧ NoneLost s := ⟨⟨_, Smp.init h0⟩, fun t ht => absurd ht (h0.2 t).1⟩
  obtain ⟨⟨q, hi⟩, hr⟩ := smpMachine.runOk_invariant (P := fun s => (∃ q, Smp s q) ∧ NoneLost s)
    (fun s a s' hP hok hs => smpStep_inv hP hok hs) l s s' hinit h
  exact ⟨q, hi.placed hr⟩

theorem bootState_smp : smpMachine.init bootState := by
  have hstate : newTask.state ≠ taskRunning := by decide
  have heff : 0 ≤ effectivePrio newTask ∧ effectivePrio newTask < maxPrio := by decide
  have hprio : PrioOk newTask := by decide
  exact ⟨bootState_boot, fun _ => ⟨hstate, ⟨hprio, heff⟩⟩⟩

/-- Two tasks start on CPU 0, one is pulled to CPU 1, runs, sleeps and is woken there. -/
def sleepers : List Ev :=
  [.wakeUpProcess 1, .wakeUpProcess 2, .schedule 0, .balance 1 0 5, .schedule 1, .tick 1, .setState 1 taskInterruptible,
    .schedule 1, .schedWakeUp 2]

theorem placed_of_run_sleepers : ∃ s', smpMachine.RunOk EvOk bootState sleepers s' ∧ ∃ q, Placed s' q := by
  have hrun : (smpMachine.check EvOk bootState sleepers).isSome = true := by decide +kernel
  obtain ⟨s', h⟩ := Option.isSome_iff_exists.1 hrun
  have hok := smpMachine.runOk_of_check h
  exact ⟨s', hok, placed_of_run _ _ s' bootState_smp hok⟩

/-- **A task woken between going to sleep and `schedule` is queued twice**: its node follows itself on the ring. -/
theorem not_placed_of_early_wake :
    ∃ s', smpMachine.init bootState ∧ smpMachine.run bootState [.wakeUpProcess 1, .schedule 0,
      .setState 0 taskInterruptible, .schedWakeUp 1] = some s' ∧ ¬ ∃ q, Placed s' q := by
  have hrun : ((smpMachine.run bootState [.wakeUpProcess 1, .schedule 0, .setState 0 taskInterruptible,
      .schedWakeUp 1]).map fun s => (s.links.next (.queue 0 false 120), s.links.next (.task 1))) =
        some (.task 1, .task 1) := by
    decide +kernel
  obtain ⟨s', h, hnext⟩ := Option.map_eq_some_iff.1 hrun
  obtain ⟨hhead, hself⟩ := Prod.mk.inj hnext
  refine ⟨s', bootState_smp, h, ?_⟩
  rintro ⟨q, hp⟩
  have hmem : 1 ∈ q ⟨0, false, 120⟩ := hp.lists.mem_of_iterate (n := 1) hhead
  exact (hp.lists.rings.ring ⟨0, false, 120⟩).next_ne (mem_map_task.2 hmem) hself

/-- **A task woken by `wake_up_process` is queued on CPU 0**, whatever CPU it belongs to. -/
theorem wakeUpProcess_cpu0 {s : State} {t : Nat} (hoff : (s.tasks t).onRq = false) :
    (wakeUpProcess s t).links = s.links.listAddTail (.task t) (.queue 0 (s.rqs 0).active (s.tasks t).prio) ∧
      ((wakeUpProcess s t).tasks t).cpu = (s.tasks t).cpu := by
  simp [wakeUpProcess, schedEnqueueTask, enqueueTask, State.setTask, hoff]

end Sched
end Pico
