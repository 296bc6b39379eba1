import Picomimi.SchedBalance
/-!
# SchedSleep — whether a task that went to sleep stays asleep

A task sleeps by storing another state than `TASK_RUNNING` and calling `schedule`.  `schedule_impl` leaves it off the
queues, but with nobody to switch to it returns to it: the task goes on, in a sleeping state and on no queue
(`not_asleep_alone`).  The other way on is a wakeup that asks too little: of a zombie, of a task `sched_enqueue_task` is
handed asleep, or of one whose node is still on a list.  In a run without these the tasks that sleep are on no queue, and
the tasks that run are (`asleep_of_run`).
-/
namespace Pico
namespace Sched

open Lib

def taskZombie : Nat := 32

/-- The scheduler, with who sleeps: it called `schedule` in another state than `TASK_RUNNING`, or as a zombie, and no
wakeup has set it back since.  A zombie is never set back. -/
structure Sleepers where
  st : State
  asleep : Nat → Bool
  dead : Nat → Bool

def Sleepers.wake (s : Sleepers) (t : Nat) : Nat → Bool := Function.update s.asleep t (s.dead t && s.asleep t)

/-- Who sleeps after the step. -/
def Sleepers.asleepAfter (s : Sleepers) : Ev → Nat → Bool
  | .schedule c =>
    match (s.st.rqs c).curr with
    | some t => if (s.st.tasks t).state = taskRunning ∧ s.dead t = false then s.asleep else Function.update s.asleep t true
    | none => s.asleep
  | .schedWakeUp t => if (s.st.tasks t).state ≠ taskRunning then s.wake t else s.asleep
  | .wakeUpProcess t => s.wake t
  | .schedEnqueueTask _ | .setState _ _ | .tick _ | .balance _ _ _ => s.asleep

def Sleepers.deadAfter (s : Sleepers) : Ev → Nat → Bool
  | .setState c state =>
    match (s.st.rqs c).curr with
    | some t => Function.update s.dead t (state = taskZombie)
    | none => s.dead
  | .schedEnqueueTask _ | .schedWakeUp _ | .wakeUpProcess _ | .schedule _ | .tick _ | .balance _ _ _ => s.dead

def sleepMachine : Machine Sleepers Ev where
  init s := smpMachine.init s.st ∧ ∀ t, s.asleep t = false ∧ s.dead t = false
  step s a := (smpStep s.st a).map fun st => ⟨st, s.asleepAfter a, s.deadAfter a⟩

/-- **No CPU runs a task that sleeps.** -/
def NoSleepwalk (s : Sleepers) : Prop := ∀ c t, (s.st.rqs c).curr = some t → s.asleep t = false

/-- **There is somebody to switch to**: with the current task off its queue, the first bit of the active bitmap, or of the
expired one when the active one has none, is that of a list with a task in it. -/
def othersFound (s : State) (c : Nat) : Bool :=
  let s := swapIfEmpty (putPrev s c) c
  (findFirstSetBit (s.rqs c).activeBitmap).any fun prio => !s.links.listEmpty (.queue c (s.rqs c).active prio)

/-- **The step leaves the sleepers alone**: a task goes to sleep where there is somebody to switch to; a wakeup is of no
zombie and, by `sched_wake_up`, of a task off the queues; `sched_enqueue_task` gets no sleeper. -/
def SleepOk (s : Sleepers) : Ev → Prop
  | .schedule c => (s.st.rqs c).curr.all (fun t => (s.st.tasks t).state = taskRunning || othersFound s.st c) = true
  | .schedEnqueueTask t => s.asleep t = false
  | .schedWakeUp t => (s.st.tasks t).state ≠ taskRunning → (s.st.tasks t).onRq = false ∧ (s.st.tasks t).state ≠ taskZombie
  | .wakeUpProcess t => (s.st.tasks t).state ≠ taskZombie
  | .setState _ _ | .tick _ | .balance _ _ _ => True

instance (s : Sleepers) : ∀ a, Decidable (SleepOk s a)
  | .schedule _ => inferInstanceAs (Decidable (_ = _))
  | .schedEnqueueTask _ => inferInstanceAs (Decidable (_ = _))
  | .schedWakeUp _ => inferInstanceAs (Decidable (_ → _))
  | .wakeUpProcess _ => inferInstanceAs (Decidable (_ ≠ _))
  | .setState _ _ | .tick _ | .balance _ _ _ => inferInstanceAs (Decidable True)

/-- **Who runs is queued, and who is queued does not sleep.** -/
structure Slept (s : Sleepers) (q : QIdx → List Nat) : Prop where
  sound : Sound s.st q
  curr : ∀ c t, (s.st.rqs c).curr = some t → ∃ i, i.cpu = c ∧ t ∈ q i
  awake : ∀ i, ∀ t ∈ q i, s.asleep t = false
  dead : ∀ t, s.dead t = true → (s.st.tasks t).state = taskZombie

variable {s s' : Sleepers} {q : QIdx → List Nat} {c t : Nat}

theorem Slept.noSleepwalk (h : Slept s q) : NoSleepwalk s := by
  intro c t hc
  obtain ⟨i, -, ht⟩ := h.curr c t hc
  exact h.awake i t ht

/-- **A task runs on one CPU at most**, the one it is queued on. -/
theorem Slept.curr_cpu (h : Slept s q) {i : QIdx} (hc : (s.st.rqs c).curr = some t) (ht : t ∈ q i) : i.cpu = c := by
  obtain ⟨j, hj, htj⟩ := h.curr c t hc
  rw [h.sound.lists.unique ht htj, hj]

/-! ## Wakeups -/

/-- A change of one task, and of who sleeps off the queues. -/
theorem Slept.setTask (h : Slept s q) {task : Task} (htask : TaskOk task) (hon : task.onRq = (s.st.tasks t).onRq)
    {asleep dead : Nat → Bool} (hawake : ∀ i, ∀ u ∈ q i, asleep u = false)
    (hdead : ∀ u, dead u = true → (if u = t then task.state else (s.st.tasks u).state) = taskZombie) :
    Slept ⟨s.st.setTask t task, asleep, dead⟩ q := by
  refine ⟨h.sound.setTask t htask hon, h.curr, hawake, fun u hu => ?_⟩
  have hz := hdead u hu
  simp only [State.setTask, Function.update_apply]
  split
  · rename_i hut
    rwa [if_pos hut] at hz
  · rename_i hut
    rwa [if_neg hut] at hz

theorem Slept.enqueueTask (h : Slept s q) (hoff : (s.st.tasks t).onRq = false) (hawake : s.asleep t = false) (c : Nat) :
    ∃ q', Slept { s with st := Sched.enqueueTask s.st c t } q' := by
  obtain ⟨p, hp⟩ := (h.sound.task t).prio.fin
  refine ⟨_, h.sound.enqueueTask hoff c hp, fun d u hu => ?_, fun i u hu => ?_, fun u hu => ?_⟩
  · rw [enqueueTask_curr] at hu
    obtain ⟨i, hi, hmem⟩ := h.curr d u hu
    exact ⟨i, hi, mem_update_append.2 (.inl hmem)⟩
  · rcases mem_update_append.1 hu with hu | ⟨hu, -⟩
    · exact h.awake i u hu
    · rw [List.mem_singleton.1 hu]
      exact hawake
  · rw [enqueueTask_tasks]
    exact h.dead u hu

/-- **A woken task is awake**, unless it is a zombie. -/
theorem Slept.wake (h : Slept s q) (hz : (s.st.tasks t).state ≠ taskZombie) :
    (∀ u, s.wake t u = true → u ≠ t ∧ s.asleep u = true) ∧ s.dead t = false := by
  have hdead : s.dead t = false := by
    cases hd : s.dead t with
    | false => rfl
    | true => exact absurd (h.dead t hd) hz
  refine ⟨fun u hu => ?_, hdead⟩
  unfold Sleepers.wake at hu
  by_cases hut : u = t
  · subst hut
    rw [Function.update_self, hdead, Bool.false_and] at hu
    cases hu
  · rw [Function.update_of_ne hut] at hu
    exact ⟨hut, hu⟩

theorem Slept.schedEnqueueTask (h : Slept s q) (hawake : s.asleep t = false) :
    ∃ q', Slept { s with st := Sched.schedEnqueueTask s.st t } q' := by
  unfold Sched.schedEnqueueTask
  cases hon : (s.st.tasks t).onRq with
  | true =>
    rw [if_pos rfl]
    exact ⟨q, h⟩
  | false =>
    rw [if_neg Bool.false_ne_true]
    exact h.enqueueTask hon hawake 0

/-- The store of `TASK_RUNNING` by a wakeup. -/
theorem Slept.setAwake (h : Slept s q) (hz : (s.st.tasks t).state ≠ taskZombie) {task : Task} (htask : TaskOk task)
    (hon : task.onRq = (s.st.tasks t).onRq) : Slept { s with st := s.st.setTask t task, asleep := s.wake t } q := by
  obtain ⟨hwake, hdead⟩ := h.wake hz
  refine h.setTask htask hon (fun i u hu => ?_) fun u hu => ?_
  · refine Bool.eq_false_iff.2 fun hw => ?_
    have hasleep := (hwake u hw).2
    rw [h.awake i u hu] at hasleep
    cases hasleep
  · have hut : u ≠ t := by
      rintro rfl
      rw [hdead] at hu
      cases hu
    rw [if_neg hut]
    exact h.dead u hu

theorem Slept.wake_self (h : Slept s q) (hz : (s.st.tasks t).state ≠ taskZombie) : s.wake t t = false :=
  Bool.eq_false_iff.2 fun hw => ((h.wake hz).1 t hw).1 rfl

theorem Slept.wakeUpProcess (h : Slept s q) (hz : (s.st.tasks t).state ≠ taskZombie) :
    ∃ q', Slept { s with st := Sched.wakeUpProcess s.st t, asleep := s.wake t } q' := by
  have htask : TaskOk { s.st.tasks t with state := taskRunning } := (h.sound.task t).congr rfl rfl rfl rfl
  exact (h.setAwake hz htask rfl).schedEnqueueTask (h.wake_self hz)

theorem Slept.schedWakeUp (h : Slept s q) (hrun : (s.st.tasks t).state ≠ taskRunning)
    (hoff : (s.st.tasks t).onRq = false) (hz : (s.st.tasks t).state ≠ taskZombie) :
    ∃ q', Slept { s with st := Sched.schedWakeUp s.st t, asleep := s.wake t } q' := by
  have htask : TaskOk { s.st.tasks t with
      state := taskRunning
      prio := effectivePrio (s.st.tasks t)
      timeSlice := calculateTimeslice { s.st.tasks t with state := taskRunning, prio := effectivePrio (s.st.tasks t) } } :=
    ⟨(h.sound.task t).effective, (h.sound.task t).effective⟩
  unfold Sched.schedWakeUp
  rw [if_pos hrun]
  refine (h.setAwake hz htask rfl).enqueueTask ?_ (h.wake_self hz) _
  simp only [State.setTask, Function.update_self]
  exact hoff

/-! ## `schedule` -/

/-- **The previous task is off the queues** while the next one is picked. -/
theorem Slept.putPrev (h : Slept s q) (hcurr : (s.st.rqs c).curr = some t) :
    ∃ i, i.cpu = c ∧ t ∈ q i ∧ Sched.putPrev s.st c = Sched.dequeueTask s.st c t ∧
      Sound (Sched.putPrev s.st c) (Function.update q i ((q i).erase t)) := by
  obtain ⟨i, hi, ht⟩ := h.curr c t hcurr
  have hon : (s.st.tasks t).onRq = true := (h.sound.lists.onRq t).2 ⟨i, ht⟩
  have hidle : some t ≠ (s.st.rqs c).idle := by
    rw [(h.sound.rq c).idle]
    exact fun h => by cases h
  have hput : Sched.putPrev s.st c = Sched.dequeueTask s.st c t := by
    unfold Sched.putPrev
    rw [hcurr]
    exact if_pos ⟨hidle, hon⟩
  refine ⟨i, hi, ht, hput, ?_⟩
  rw [hput]
  exact h.sound.dequeueTask ht c

/-- A runnable previous task is queued again, on one of the CPU's lists. -/
theorem Sound.requeuePrev {s : State} (hi : Sound s q) (hcurr : (s.rqs c).curr = some t)
    (hrun : (s.tasks t).state = taskRunning) (hoff : (s.tasks t).onRq = false) :
    ∃ j, j.cpu = c ∧ Sound (Sched.requeuePrev s c) (Function.update q j (q j ++ [t])) := by
  have hidle : some t ≠ (s.rqs c).idle := by
    rw [(hi.rq c).idle]
    exact fun h => by cases h
  obtain ⟨p, hp⟩ := (hi.task t).prio.fin
  simp only [Sched.requeuePrev, hcurr, if_pos hidle, if_pos hrun]
  split
  · have htask : TaskOk { s.tasks t with timeSlice := 100 } := (hi.task t).congr rfl rfl rfl rfl
    refine ⟨⟨c, (s.rqs c).expired, p⟩, rfl, (hi.setTask t htask rfl).expireTask ?_ c ?_⟩
    · simp only [State.setTask, Function.update_self]
      exact hoff
    · simp only [State.setTask, Function.update_self]
      exact hp
  · exact ⟨⟨c, (s.rqs c).active, p⟩, rfl, hi.enqueueTask hoff c hp⟩

/-- A task that sleeps is left off. -/
theorem requeuePrev_of_sleeping {s : State} (hcurr : (s.rqs c).curr = some t) (hrun : (s.tasks t).state ≠ taskRunning) :
    requeuePrev s c = s := by
  simp only [requeuePrev, hcurr, if_neg hrun, ite_self]

/-- Who runs after `schedule_impl`. -/
theorem scheduleImpl_curr {s : State} {c : Nat}
    (hidle : ((requeuePrev (swapIfEmpty (putPrev s c) c) c).rqs c).idle = none) :
    ((scheduleImpl s c).rqs c).curr = (firstTask (swapIfEmpty (putPrev s c) c) c).or (s.rqs c).curr := by
  have hcurr : ((requeuePrev (swapIfEmpty (putPrev s c) c) c).rqs c).curr = (s.rqs c).curr := by
    rw [requeuePrev_curr, (swapIfEmpty_curr _ c c).1, (putPrev_spec s c).1]
  simp only [scheduleImpl, pickNextTask, setCurr, State.setRq, Function.update_self, hidle, hcurr]
  cases firstTask (swapIfEmpty (putPrev s c) c) c with
  | some next => simp
  | none =>
    cases (s.rqs c).curr with
    | some prev => simp
    | none => simp

/-- A list the bitmap names, if it is not empty, has a first task. -/
theorem Sound.firstTask_some {s : State} (hi : Sound s q) {prio : Int}
    (hprio : findFirstSetBit (s.rqs c).activeBitmap = some prio)
    (hne : s.links.listEmpty (.queue c (s.rqs c).active prio) = false) : ∃ next, Sched.firstTask s c = some next := by
  obtain ⟨p, rfl, hlt, hbit⟩ := findFrom_some hprio
  have hp : p < 140 := by
    by_contra hp
    rw [(hi.rq c).activeBits p (by omega) (by omega)] at hbit
    cases hbit
  have hring := hi.lists.rings.ring ⟨c, (s.rqs c).active, ⟨p, hp⟩⟩
  cases hq : q ⟨c, (s.rqs c).active, ⟨p, hp⟩⟩ with
  | nil =>
    rw [hq] at hring
    have hempty : s.links.listEmpty (.queue c (s.rqs c).active (p : Nat)) = true := hring.listEmpty.2 rfl
    rw [hne] at hempty
    cases hempty
  | cons x xs =>
    rw [hq] at hring
    have hnext : s.links.next (.queue c (s.rqs c).active (p : Nat)) = .task x := hring.next_cons
    refine ⟨x, ?_⟩
    simp only [Sched.firstTask, hprio, hne, Bool.false_eq_true, if_false, hnext, Node.task?]

theorem Sound.othersFound {s : State} (hi : Sound (Sched.swapIfEmpty (Sched.putPrev s c) c) q)
    (h : Sched.othersFound s c = true) : ∃ next,
      Sched.firstTask (Sched.swapIfEmpty (Sched.putPrev s c) c) c = some next := by
  unfold Sched.othersFound at h
  obtain ⟨prio, hprio, hne⟩ := (Option.any_eq_true _ _).1 h
  exact hi.firstTask_some hprio (by simpa using hne)

/-- **`schedule` puts the caller to sleep, or leaves it among the runnable.** -/
theorem Slept.scheduleImpl (h : Slept s q) (hok : SleepOk s (.schedule c)) :
    ∃ q', Slept ⟨Sched.scheduleImpl s.st c, s.asleepAfter (.schedule c), s.dead⟩ q' := by
  have hdead : ∀ u, s.dead u = true → ((Sched.scheduleImpl s.st c).tasks u).state = taskZombie := by
    intro u hu
    rw [scheduleImpl_state]
    exact h.dead u hu
  cases hcurr : (s.st.rqs c).curr with
  | none =>
    have hput : Sched.putPrev s.st c = s.st := by
      unfold Sched.putPrev
      rw [hcurr]
    have hreq : Sched.requeuePrev (Sched.swapIfEmpty s.st c) c = Sched.swapIfEmpty s.st c := by
      unfold Sched.requeuePrev
      rw [(swapIfEmpty_curr s.st c c).1, hcurr]
    have hs := h.sound.swapIfEmpty c
    have hcurr' := scheduleImpl_curr (s := s.st) (c := c) (by rw [hput, hreq]; exact (hs.rq c).idle)
    rw [hput, hcurr, Option.or_none] at hcurr'
    refine ⟨q, ?_, fun d u hu => ?_, fun i u hu => ?_, hdead⟩
    · simp only [Sched.scheduleImpl, hput, pickNextTask, hreq]
      exact hs.setCurr c _
    · by_cases hd : d = c
      · subst hd
        rw [hcurr'] at hu
        obtain ⟨p, hp⟩ := hs.firstTask hu
        exact ⟨_, rfl, hp⟩
      · rw [scheduleImpl_curr_of_ne _ hd] at hu
        exact h.curr d u hu
    · simp only [Sleepers.asleepAfter, hcurr]
      exact h.awake i u hu
  | some t =>
    obtain ⟨i, hi, ht, hput, hs1⟩ := h.putPrev hcurr
    have hs2 := hs1.swapIfEmpty c
    have hcurr2 : ((Sched.swapIfEmpty (Sched.putPrev s.st c) c).rqs c).curr = some t := by
      rw [(swapIfEmpty_curr _ c c).1, (putPrev_spec s.st c).1, hcurr]
    have htask2 : (Sched.swapIfEmpty (Sched.putPrev s.st c) c).tasks t = { s.st.tasks t with onRq := false } := by
      rw [swapIfEmpty_tasks, hput, dequeueTask_tasks, if_pos rfl]
    have hother : ∀ {d : Nat} {u : Nat}, d ≠ c → (s.st.rqs d).curr = some u → u ≠ t := by
      rintro d u hd hu rfl
      exact hd ((h.curr_cpu hu ht).symm.trans hi)
    by_cases hrun : (s.st.tasks t).state = taskRunning
    · -- queued again
      obtain ⟨j, hj, hs3⟩ := hs2.requeuePrev hcurr2 (by rw [htask2]; exact hrun) (by rw [htask2])
      have hcurr' := scheduleImpl_curr (hs3.rq c).idle
      have hlive : s.dead t = false := by
        cases hd : s.dead t with
        | false => rfl
        | true =>
          have hz := h.dead t hd
          rw [hrun] at hz
          cases hz
      refine ⟨_, hs3.setCurr c _, fun d u hu => ?_, fun k u hu => ?_, hdead⟩
      · by_cases hd : d = c
        · subst hd
          rw [hcurr', hcurr] at hu
          cases hnext : Sched.firstTask (Sched.swapIfEmpty (Sched.putPrev s.st d) d) d with
          | some next =>
            rw [hnext] at hu
            cases hu
            obtain ⟨p, hp⟩ := hs2.firstTask hnext
            exact ⟨_, rfl, mem_update_append.2 (.inl hp)⟩
          | none =>
            rw [hnext] at hu
            cases hu
            exact ⟨j, hj, by rw [Function.update_self]; simp⟩
        · rw [scheduleImpl_curr_of_ne _ hd] at hu
          obtain ⟨k, hk, hmem⟩ := h.curr d u hu
          exact ⟨k, hk, mem_update_append.2 (.inl ((mem_erase_of_ne (hother hd hu)).2 hmem))⟩
      · simp only [Sleepers.asleepAfter, hcurr, if_pos (And.intro hrun hlive)]
        rcases mem_update_append.1 hu with hu | ⟨hu, -⟩
        · exact h.awake k u (mem_of_update_erase hu)
        · rw [List.mem_singleton.1 hu]
          exact h.awake i t ht
    · -- left off, for somebody else
      have hfound : Sched.othersFound s.st c = true := by
        simp only [SleepOk, hcurr, Option.all_some, hrun, decide_false, Bool.false_or] at hok
        exact hok
      obtain ⟨next, hnext⟩ := hs2.othersFound hfound
      have hreq := requeuePrev_of_sleeping hcurr2 (by rw [htask2]; exact hrun)
      have hcurr' := scheduleImpl_curr (s := s.st) (c := c) (by rw [hreq]; exact (hs2.rq c).idle)
      rw [hnext, Option.some_or] at hcurr'
      have hs3 : Sound (Sched.scheduleImpl s.st c) (Function.update q i ((q i).erase t)) := by
        simp only [Sched.scheduleImpl, pickNextTask, hreq]
        exact hs2.setCurr c _
      refine ⟨_, hs3, fun d u hu => ?_, fun k u hu => ?_, hdead⟩
      · by_cases hd : d = c
        · subst hd
          rw [hcurr'] at hu
          cases hu
          obtain ⟨p, hp⟩ := hs2.firstTask hnext
          exact ⟨_, rfl, hp⟩
        · rw [scheduleImpl_curr_of_ne _ hd] at hu
          obtain ⟨k, hk, hmem⟩ := h.curr d u hu
          exact ⟨k, hk, (mem_erase_of_ne (hother hd hu)).2 hmem⟩
      · have hut : u ≠ t := by
          rintro rfl
          have hon := (hs2.lists.onRq u).2 ⟨k, hu⟩
          rw [htask2] at hon
          cases hon
        simp only [Sleepers.asleepAfter, hcurr, if_neg (fun hc : _ ∧ _ => hrun hc.1), Function.update_of_ne hut]
        exact h.awake k u (mem_of_update_erase hu)

/-! ## Runs -/

/-- **A move between run queues** takes a task that is not running. -/
theorem Slept.taskMigrate (h : Slept s q) {src : Nat} (dst : Nat) {i : QIdx} (ht : t ∈ q i) (hi : i.cpu = src)
    (hcurr : (s.st.rqs src).curr ≠ some t) : ∃ q', Slept { s with st := Sched.taskMigrate s.st t src dst } q' := by
  have hon : (s.st.tasks t).onRq = true := (h.sound.lists.onRq t).2 ⟨i, ht⟩
  have hs1 := h.sound.dequeueTask ht src
  have ht1 : (Sched.dequeueTask s.st src t).tasks t = { s.st.tasks t with onRq := false } := by
    rw [dequeueTask_tasks, if_pos rfl]
  have htask : TaskOk { (Sched.dequeueTask s.st src t).tasks t with
      cpu := ((Sched.dequeueTask s.st src t).rqs dst).cpu } := (hs1.task t).congr rfl rfl rfl rfl
  have hs2 := hs1.setTask t htask rfl
  obtain ⟨p, hp⟩ := (hs2.task t).prio.fin
  have hs3 := ((hs2.enqueueTask (by simp only [State.setTask, Function.update_self, ht1]) dst hp).countMigration
    dst).countMigration src
  have hst : Sched.taskMigrate s.st t src dst = Sched.countMigration (Sched.countMigration (Sched.enqueueTask
      ((Sched.dequeueTask s.st src t).setTask t { (Sched.dequeueTask s.st src t).tasks t with
        cpu := ((Sched.dequeueTask s.st src t).rqs dst).cpu }) dst t) dst) src := by
    simp only [Sched.taskMigrate, hon, if_true]
  refine ⟨_, hst ▸ hs3, fun d u hu => ?_, fun k u hu => ?_, fun u hu => ?_⟩
  · rw [(taskMigrate_rq hon d).1] at hu
    obtain ⟨k, hk, hmem⟩ := h.curr d u hu
    have hut : u ≠ t := by
      rintro rfl
      have hd := (h.curr_cpu hu ht).symm.trans hi
      exact hcurr (hd ▸ hu)
    exact ⟨k, hk, mem_update_append.2 (.inl ((mem_erase_of_ne hut).2 hmem))⟩
  · rcases mem_update_append.1 hu with hu | ⟨hu, -⟩
    · exact h.awake k u (mem_of_update_erase hu)
    · rw [List.mem_singleton.1 hu]
      exact h.awake i t ht
  · have hz := h.dead u hu
    rw [taskMigrate_tasks hon]
    split
    · rename_i hut
      rw [hut] at hz
      exact hz
    · exact hz

theorem Slept.pullTasks {src this fuel : Nat} : ∀ {n : Nat} {st st' : State} {q : QIdx → List Nat},
    Slept { s with st := st } q → Sched.pullTasks src this fuel n st = some st' → ∃ q', Slept { s with st := st' } q'
  | 0, st, st', q, h, hp => by
    cases hp
    exact ⟨q, h⟩
  | n + 1, st, st', q, h, hp => by
    simp only [Sched.pullTasks] at hp
    split at hp
    · cases hp
      exact ⟨q, h⟩
    · split at hp
      · cases hp
        exact ⟨q, h⟩
      · split at hp
        · cases hp
        · cases hp
          exact ⟨q, h⟩
        · rename_i t hfind
          obtain ⟨⟨p, ht⟩, hmig⟩ := h.sound.lists.findMigratable (Nat.le_refl 140) hfind
          obtain ⟨q1, h1⟩ := h.taskMigrate this ht rfl (migratable_iff.1 hmig).1
          exact Slept.pullTasks h1 hp

/-- **Every step that meets the condition** leaves who runs queued and who sleeps off the queues. -/
theorem Slept.step (h : Slept s q) {a : Ev} (hok : SleepOk s a) (hs : sleepMachine.step s a = some s') :
    ∃ q', Slept s' q' := by
  obtain ⟨st, hst, rfl⟩ := Option.map_eq_some_iff.1 hs
  cases a with
  | schedEnqueueTask t =>
    cases hst
    exact h.schedEnqueueTask hok
  | schedWakeUp t =>
    cases hst
    by_cases hrun : (s.st.tasks t).state ≠ taskRunning
    · obtain ⟨hoff, hz⟩ := hok hrun
      simp only [Sleepers.asleepAfter, if_pos hrun]
      exact h.schedWakeUp hrun hoff hz
    · have hstay : Sched.schedWakeUp s.st t = s.st := if_neg hrun
      simp only [Sleepers.asleepAfter, if_neg hrun, hstay]
      exact ⟨q, h⟩
  | wakeUpProcess t =>
    cases hst
    exact h.wakeUpProcess hok
  | schedule c =>
    cases hst
    exact h.scheduleImpl hok
  | setState c state =>
    simp only [smpStep] at hst
    cases hcurr : (s.st.rqs c).curr with
    | none =>
      rw [hcurr] at hst
      cases hst
    | some t =>
      rw [hcurr] at hst
      cases hst
      have htask : TaskOk { s.st.tasks t with state := state } := (h.sound.task t).congr rfl rfl rfl rfl
      refine ⟨q, h.setTask htask rfl h.awake fun u hu => ?_⟩
      simp only [Sleepers.deadAfter, hcurr] at hu
      by_cases hut : u = t
      · subst hut
        rw [Function.update_self] at hu
        rw [if_pos rfl]
        exact of_decide_eq_true hu
      · rw [Function.update_of_ne hut] at hu
        rw [if_neg hut]
        exact h.dead u hu
  | tick c =>
    simp only [smpStep] at hst
    cases hcurr : (s.st.rqs c).curr with
    | none =>
      rw [hcurr] at hst
      cases hst
      exact ⟨q, h⟩
    | some t =>
      rw [hcurr] at hst
      cases hst
      have htask : TaskOk { s.st.tasks t with timeSlice := (s.st.tasks t).timeSlice - 1 } :=
        (h.sound.task t).congr rfl rfl rfl rfl
      refine ⟨q, h.setTask htask rfl h.awake fun u hu => ?_⟩
      have hz := h.dead u hu
      split
      · rename_i hut
        rw [hut] at hz
        exact hz
      · exact hz
  | balance this src fuel =>
    simp only [smpStep] at hst
    split at hst
    · cases hst
    · exact h.pullTasks hst

theorem Slept.init (h : sleepMachine.init s) : Slept s fun _ => [] := by
  obtain ⟨hsmp, hghost⟩ := h
  refine ⟨(Smp.init hsmp).sound, fun c t hc => ?_, fun i t ht => ?_, fun t ht => ?_⟩
  · rw [hsmp.1.rqs c] at hc
    cases hc
  · cases ht
  · rw [(hghost t).2] at ht
    cases ht

/-- **Sleep means sleep** in every state of a run of such steps. -/
theorem asleep_of_run (l : List Ev) (s s' : Sleepers) (h0 : sleepMachine.init s) (h : sleepMachine.RunOk SleepOk s l s') :
    NoSleepwalk s' := by
  obtain ⟨q, hq⟩ := sleepMachine.runOk_invariant (P := fun s => ∃ q, Slept s q)
    (fun _ _ _ hP hok hs => hP.elim fun _ hP => hP.step hok hs) l s s' ⟨_, Slept.init h0⟩ h
  exact hq.noSleepwalk

/-- Nobody sleeps yet. -/
def bootSleepers : Sleepers := ⟨bootState, fun _ => false, fun _ => false⟩

theorem bootSleepers_init : sleepMachine.init bootSleepers := ⟨bootState_smp, fun _ => ⟨rfl, rfl⟩⟩

/-- Two tasks run in turn; one sleeps while the other runs and is woken, and the other exits. -/
def turnsAsleep : List Ev :=
  [.wakeUpProcess 1, .wakeUpProcess 2, .schedule 0, .setState 0 taskInterruptible, .schedule 0, .schedWakeUp 1,
    .setState 0 taskZombie, .schedule 0]

theorem asleep_of_run_turns : ∃ s', sleepMachine.RunOk SleepOk bootSleepers turnsAsleep s' ∧ NoSleepwalk s' := by
  have hrun : (sleepMachine.check SleepOk bootSleepers turnsAsleep).isSome = true := by decide +kernel
  obtain ⟨s', h⟩ := Option.isSome_iff_exists.1 hrun
  have hok := sleepMachine.runOk_of_check h
  exact ⟨s', hok, asleep_of_run _ _ s' bootSleepers_init hok⟩

/-- **The only task goes to sleep, and goes on.** -/
theorem not_asleep_alone : ¬∀ (l : List Ev) (s s' : Sleepers), sleepMachine.init s → sleepMachine.run s l = some s' →
    NoSleepwalk s' := by
  intro h
  have hrun : (sleepMachine.run bootSleepers [.wakeUpProcess 1, .schedule 0, .setState 0 taskInterruptible,
      .schedule 0]).map (fun s => ((s.st.rqs 0).curr, s.asleep 1)) = some (some 1, true) := by
    decide +kernel
  obtain ⟨s', hs', hwalk⟩ := Option.map_eq_some_iff.1 hrun
  obtain ⟨hcurr, hasleep⟩ := Prod.mk.inj hwalk
  have := h _ _ s' bootSleepers_init hs' 0 1 hcurr
  rw [hasleep] at this
  cases this

end Sched
end Pico
