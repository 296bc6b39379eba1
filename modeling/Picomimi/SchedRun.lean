import Picomimi.Lib.Run
import Picomimi.SchedLists
/-!
# SchedRun — the run queues' books over whole runs

`Books` is the representation invariant of every run queue at once: the lists, and for each CPU the bitmaps, the counts,
`nr_running` and `load`.  Every step keeps it but the one that expires a task (`expire_task` adds to `nr_running` and not to
`load`, while `dequeue_task` takes from both) and the ones that take a task off an array it is not on.
-/
namespace Pico
namespace Sched

open Lib

/-- **The books of every run queue are right.** -/
structure Books (s : State) (q : QIdx → List Nat) : Prop where
  lists : Lists s q
  acct : ∀ c, Acct (s.rqs c) s.tasks (cpuQueues q c)

/-- The task's priority indexes a queue. -/
def PrioOk (task : Task) : Prop := 0 ≤ task.prio ∧ task.prio < maxPrio

instance (task : Task) : Decidable (PrioOk task) := inferInstanceAs (Decidable (_ ∧ _))

theorem PrioOk.fin {task : Task} (h : PrioOk task) : ∃ p : Fin 140, task.prio = (p : Nat) := by
  obtain ⟨h0, h1⟩ := h
  unfold maxPrio at h1
  exact ⟨⟨task.prio.toNat, by omega⟩, by simp only; omega⟩

/-- **The task is linked on the active array of run queue `c`**, in the queue its priority names. -/
def OnActive (s : State) (c t : Nat) : Prop :=
  PrioOk (s.tasks t) ∧ ∃ n, s.links.next^[n] (.queue c (s.rqs c).active (s.tasks t).prio) = .task t

variable {s s' : State} {q : QIdx → List Nat} {c t : Nat}

theorem Books.mem_active (hb : Books s q) (h : OnActive s c t) :
    ∃ p : Fin 140, (s.tasks t).prio = (p : Nat) ∧ t ∈ q ⟨c, (s.rqs c).active, p⟩ := by
  obtain ⟨hok, n, hn⟩ := h
  obtain ⟨p, hp⟩ := hok.fin
  rw [hp] at hn
  exact ⟨p, hp, hb.lists.mem_of_iterate (i := ⟨c, (s.rqs c).active, p⟩) hn⟩

/-- **`enqueue_task` keeps the books of every run queue**, its own and the others'. -/
theorem Acct.enqueueTask {d : Nat} (ha : Acct (s.rqs d) s.tasks (cpuQueues q d)) (c : Nat) {p : Fin 140}
    (hp : (s.tasks t).prio = (p : Nat)) :
    Acct ((Sched.enqueueTask s c t).rqs d) (Sched.enqueueTask s c t).tasks
      (cpuQueues (Function.update q ⟨c, (s.rqs c).active, p⟩ (q ⟨c, (s.rqs c).active, p⟩ ++ [t])) d) := by
  have hprio : ∀ u, ((Sched.enqueueTask s c t).tasks u).prio = (s.tasks u).prio := by
    intro u
    rw [enqueueTask_tasks]
  by_cases hd : d = c
  · subst hd
    rw [cpuQueues_update_self]
    have h := ha.append hp hprio
    simp only [Sched.enqueueTask, Function.update_self] at h ⊢
    exact h
  · rw [cpuQueues_update_of_ne hd]
    have h := ha.congr (fun i u _ => hprio u)
    simp only [Sched.enqueueTask, Function.update_of_ne hd] at h ⊢
    exact h

theorem Acct.dequeueTask {d : Nat} (ha : Acct (s.rqs d) s.tasks (cpuQueues q d)) {p : Fin 140}
    (ht : t ∈ q ⟨c, (s.rqs c).active, p⟩) :
    Acct ((Sched.dequeueTask s c t).rqs d) (Sched.dequeueTask s c t).tasks
      (cpuQueues (Function.update q ⟨c, (s.rqs c).active, p⟩ ((q ⟨c, (s.rqs c).active, p⟩).erase t)) d) := by
  have hprio : ∀ u, ((Sched.dequeueTask s c t).tasks u).prio = (s.tasks u).prio := by
    intro u
    rw [dequeueTask_tasks]
  by_cases hd : d = c
  · subst hd
    rw [cpuQueues_update_self]
    have h := ha.erase (p := p) ht hprio
    simp only [Sched.dequeueTask, Function.update_self] at h ⊢
    exact h
  · rw [cpuQueues_update_of_ne hd]
    have h := ha.congr (fun i u _ => hprio u)
    simp only [Sched.dequeueTask, Function.update_of_ne hd] at h ⊢
    exact h

theorem Books.enqueueTask (hb : Books s q) (hoff : (s.tasks t).onRq = false) (hok : PrioOk (s.tasks t)) (c : Nat) :
    ∃ q', Books (Sched.enqueueTask s c t) q' := by
  obtain ⟨p, hp⟩ := hok.fin
  exact ⟨_, hb.lists.enqueueTask hoff c hp, fun d => (hb.acct d).enqueueTask c hp⟩

theorem Books.dequeueTask (hb : Books s q) (h : OnActive s c t) : ∃ q', Books (Sched.dequeueTask s c t) q' := by
  obtain ⟨p, hp, ht⟩ := hb.mem_active h
  exact ⟨_, hb.lists.dequeueTask ht c, fun d => (hb.acct d).dequeueTask ht⟩

theorem Books.swapArrays (hb : Books s q) (c : Nat) : Books (Sched.swapArrays s c) q := by
  refine ⟨hb.lists.setRq c _, fun d => ?_⟩
  by_cases hd : d = c
  · subst hd
    have h := (hb.acct d).swap
    simp only [Sched.swapArrays, State.setRq, Function.update_self]
    exact h
  · simp only [Sched.swapArrays, State.setRq, Function.update_of_ne hd]
    exact hb.acct d

theorem Books.swapIfEmpty (hb : Books s q) (c : Nat) : Books (Sched.swapIfEmpty s c) q := by
  unfold Sched.swapIfEmpty
  split
  · exact hb.swapArrays c
  · exact hb

theorem Books.setCurr (hb : Books s q) (c : Nat) (next : Option Nat) : Books (Sched.setCurr s c next) q := by
  refine ⟨hb.lists.setRq c _, fun d => ?_⟩
  by_cases hd : d = c
  · subst hd
    obtain ⟨h1, h2, h3, h4, h5, h6, h7⟩ := hb.acct d
    simp only [Sched.setCurr, State.setRq, Function.update_self]
    exact ⟨h1, h2, h3, h4, h5, h6, h7⟩
  · simp only [Sched.setCurr, State.setRq, Function.update_of_ne hd]
    exact hb.acct d

/-- A task that is on no queue may change its priority, any other only its state and slice. -/
theorem Books.setTask (hb : Books s q) {task : Task} (hon : task.onRq = (s.tasks t).onRq)
    (hprio : (s.tasks t).onRq = true → task.prio = (s.tasks t).prio) : Books (s.setTask t task) q := by
  refine ⟨hb.lists.setTask hon, fun d => (hb.acct d).congr fun i u hu => ?_⟩
  simp only [State.setTask, Function.update_apply]
  split
  · rename_i hut
    subst hut
    exact hprio ((hb.lists.onRq u).2 ⟨_, hu⟩)
  · rfl

/-! ## `schedule_impl` -/

/-- **Nothing goes wrong with the previous task**: it is taken off the active array, and if it is still runnable its slice
is not used up. -/
def PrevOk (s : State) (c : Nat) : Prop :=
  ∀ prev, (s.rqs c).curr = some prev → some prev ≠ (s.rqs c).idle →
    ((s.tasks prev).onRq = true → OnActive s c prev) ∧
      ((s.tasks prev).state = taskRunning → (s.tasks prev).timeSlice ≠ 0 ∧ PrioOk (s.tasks prev))

theorem dequeueTask_curr (s : State) (c t d : Nat) :
    ((dequeueTask s c t).rqs d).curr = (s.rqs d).curr ∧ ((dequeueTask s c t).rqs d).idle = (s.rqs d).idle := by
  simp only [dequeueTask, Function.update_apply]
  split
  · rename_i h
    rw [h]
    exact ⟨rfl, rfl⟩
  · exact ⟨rfl, rfl⟩

theorem swapIfEmpty_curr (s : State) (c d : Nat) :
    ((swapIfEmpty s c).rqs d).curr = (s.rqs d).curr ∧ ((swapIfEmpty s c).rqs d).idle = (s.rqs d).idle := by
  unfold swapIfEmpty
  split
  · simp only [swapArrays, State.setRq, Function.update_apply]
    split
    · rename_i h
      rw [h]
      exact ⟨rfl, rfl⟩
    · exact ⟨rfl, rfl⟩
  · exact ⟨rfl, rfl⟩

theorem swapIfEmpty_tasks (s : State) (c : Nat) : (swapIfEmpty s c).tasks = s.tasks := by
  unfold swapIfEmpty
  split <;> rfl

/-- **What `schedule_impl` does with the previous task first**: it is off the queues, and nothing else about it changed. -/
theorem putPrev_spec (s : State) (c : Nat) :
    ((putPrev s c).rqs c).curr = (s.rqs c).curr ∧ ((putPrev s c).rqs c).idle = (s.rqs c).idle ∧
      (∀ prev, (s.rqs c).curr = some prev → some prev ≠ (s.rqs c).idle →
        (putPrev s c).tasks prev = { s.tasks prev with onRq := false }) ∧
      (putPrev s c = s ∨ ∃ prev, (s.rqs c).curr = some prev ∧ some prev ≠ (s.rqs c).idle ∧
        (s.tasks prev).onRq = true ∧ putPrev s c = dequeueTask s c prev) := by
  unfold putPrev
  cases hcurr : (s.rqs c).curr with
  | none => exact ⟨hcurr, rfl, fun _ h => (by cases h), .inl rfl⟩
  | some prev =>
    simp only
    by_cases hgo : some prev ≠ (s.rqs c).idle ∧ (s.tasks prev).onRq = true
    · rw [if_pos hgo]
      obtain ⟨h1, h2⟩ := dequeueTask_curr s c prev c
      refine ⟨h1.trans hcurr, h2, ?_, .inr ⟨prev, rfl, hgo.1, hgo.2, rfl⟩⟩
      intro u hu _
      cases hu
      rw [dequeueTask_tasks, if_pos rfl]
    · rw [if_neg hgo]
      refine ⟨hcurr, rfl, ?_, .inl rfl⟩
      intro u hu hidle
      cases hu
      have hoff : (s.tasks prev).onRq = false := by
        cases hon : (s.tasks prev).onRq with
        | true => exact absurd ⟨hidle, hon⟩ hgo
        | false => rfl
      rw [← hoff]

theorem Books.putPrev (hb : Books s q) (hok : PrevOk s c) : ∃ q', Books (Sched.putPrev s c) q' := by
  obtain ⟨-, -, -, h | ⟨prev, hcurr, hidle, hon, h⟩⟩ := putPrev_spec s c
  · rw [h]
    exact ⟨q, hb⟩
  · rw [h]
    exact hb.dequeueTask ((hok prev hcurr hidle).1 hon)

theorem Books.requeuePrev (hb : Books s q)
    (hok : ∀ prev, (s.rqs c).curr = some prev → some prev ≠ (s.rqs c).idle → (s.tasks prev).onRq = false ∧
      ((s.tasks prev).state = taskRunning → (s.tasks prev).timeSlice ≠ 0 ∧ PrioOk (s.tasks prev))) :
    ∃ q', Books (Sched.requeuePrev s c) q' := by
  unfold Sched.requeuePrev
  cases hcurr : (s.rqs c).curr with
  | none => exact ⟨q, hb⟩
  | some prev =>
    simp only
    by_cases hidle : some prev ≠ (s.rqs c).idle
    · rw [if_pos hidle]
      by_cases hrun : (s.tasks prev).state = taskRunning
      · obtain ⟨hoff, hslice⟩ := hok prev hcurr hidle
        obtain ⟨hne, hprio⟩ := hslice hrun
        rw [if_pos hrun, if_neg hne]
        exact hb.enqueueTask hoff hprio c
      · rw [if_neg hrun]
        exact ⟨q, hb⟩
    · rw [if_neg hidle]
      exact ⟨q, hb⟩

theorem Books.scheduleImpl (hb : Books s q) (hok : PrevOk s c) : ∃ q', Books (Sched.scheduleImpl s c) q' := by
  obtain ⟨hcurr, hidle, hprev, -⟩ := putPrev_spec s c
  obtain ⟨q1, hb1⟩ := hb.putPrev hok
  have hb2 := hb1.swapIfEmpty c
  obtain ⟨hc2, hi2⟩ := swapIfEmpty_curr (Sched.putPrev s c) c c
  obtain ⟨q3, hb3⟩ : ∃ q', Books (Sched.requeuePrev (Sched.swapIfEmpty (Sched.putPrev s c) c) c) q' := by
    refine hb2.requeuePrev fun prev hc hi => ?_
    rw [hc2, hcurr] at hc
    rw [hi2, hidle] at hi
    have htask := hprev prev hc hi
    rw [swapIfEmpty_tasks, htask]
    exact ⟨rfl, (hok prev hc hi).2⟩
  exact ⟨q3, hb3.setCurr c _⟩

/-! ## `sched_setscheduler` -/

theorem setPolicy_onRq {task task' : Task} {policy prio : Int} (h : setPolicy task policy prio = some task') :
    task'.onRq = task.onRq := by
  unfold setPolicy at h
  split at h
  · cases h
    rfl
  · split at h
    · cases h
      rfl
    · cases h

theorem setPolicy_with_onRq (task : Task) (policy prio : Int) (b : Bool) :
    setPolicy { task with onRq := b } policy prio =
      (setPolicy task policy prio).map fun task' => { task' with onRq := b } := by
  unfold setPolicy
  split
  · rfl
  · split <;> rfl

theorem Books.schedSetscheduler (hb : Books s q) {policy prio : Int}
    (hok : (s.tasks t).onRq = true → OnActive s (s.tasks t).cpu t ∧
      ∀ task ∈ setPolicy (s.tasks t) policy prio, PrioOk task) :
    ∃ q', Books (Sched.schedSetscheduler s t policy prio).1 q' := by
  unfold Sched.schedSetscheduler
  cases hon : (s.tasks t).onRq with
  | false =>
    simp only [Bool.false_eq_true, if_false]
    have hfree : ∀ task : Task, task.onRq = false → Books (s.setTask t task) q := fun task h =>
      hb.setTask (h.trans hon.symm) (fun h' => by rw [hon] at h'; cases h')
    cases hset : setPolicy (s.tasks t) policy prio with
    | none => exact ⟨q, hfree _ hon⟩
    | some task => exact ⟨q, hfree _ ((setPolicy_onRq hset).trans hon)⟩
  | true =>
    obtain ⟨hact, hnew⟩ := hok hon
    obtain ⟨q1, hb1⟩ := hb.dequeueTask hact
    simp only [if_true]
    have hoff : ((Sched.dequeueTask s (s.tasks t).cpu t).tasks t) = { s.tasks t with onRq := false } := by
      rw [dequeueTask_tasks, if_pos rfl]
    have hfree : ∀ task : Task, task.onRq = false →
        Books ((Sched.dequeueTask s (s.tasks t).cpu t).setTask t task) q1 := fun task h =>
      hb1.setTask (by rw [hoff, h]) (fun h' => by rw [hoff] at h'; cases h')
    rw [hoff]
    rw [setPolicy_with_onRq]
    cases hset : setPolicy (s.tasks t) policy prio with
    | none => exact ⟨q1, hfree _ rfl⟩
    | some task =>
      have hprio : PrioOk task := hnew task hset
      simp only [Option.map_some]
      refine (hfree _ rfl).enqueueTask ?_ ?_ _
      · simp only [State.setTask, Function.update_self]
      · simp only [State.setTask, Function.update_self]
        exact hprio

/-! ## Runs -/

inductive Op where
  | enqueue (c t : Nat)
  | dequeue (c t : Nat)
  | expire (c t : Nat)
  | swap (c : Nat)
  | pick (c : Nat)
  | schedule (c : Nat)
  | setscheduler (t : Nat) (policy prio : Int)
  | touch (t state timeSlice : Nat)      -- the rest of the kernel: a task's state or slice changes

def step (s : State) : Op → State
  | .enqueue c t => enqueueTask s c t
  | .dequeue c t => dequeueTask s c t
  | .expire c t => expireTask s c t
  | .swap c => swapArrays s c
  | .pick c => (pickNextTask s c).2
  | .schedule c => scheduleImpl s c
  | .setscheduler t policy prio => (schedSetscheduler s t policy prio).1
  | .touch t state timeSlice => s.setTask t { s.tasks t with state := state, timeSlice := timeSlice }

/-- After `o1_sched_init`: every run queue empty, and no task on one. -/
structure Boot (s : State) : Prop where
  rqs : ∀ c, s.rqs c = initRq c
  tasks : ∀ t, (s.tasks t).onRq = false
  links : ∀ i : QIdx, s.links.next i.head = i.head ∧ s.links.prev i.head = i.head

def machine : Machine State Op where
  init := Boot
  step s a := some (step s a)

/-- **The step expires no task, takes a task off the array it is on, and queues a task that is on none** under a priority
that indexes a queue. -/
def StepOk (s : State) : Op → Prop
  | .enqueue _ t => (s.tasks t).onRq = false ∧ PrioOk (s.tasks t)
  | .dequeue c t => OnActive s c t
  | .expire _ _ => False
  | .schedule c => PrevOk s c
  | .setscheduler t policy prio => (s.tasks t).onRq = true → OnActive s (s.tasks t).cpu t ∧
      ∀ task ∈ setPolicy (s.tasks t) policy prio, PrioOk task
  | .swap _ | .pick _ | .touch _ _ _ => True

theorem Boot.lists (h : Boot s) : Lists s fun _ => [] := by
  constructor
  · constructor
    · intro i
      exact Links.ring_nil (h.links i).1 (h.links i).2
    · exact QIdx.head_injective
    · intro i j hm
      cases hm
    · intro i j x hm
      cases hm
  · intro t
    rw [h.tasks t]
    refine ⟨fun hf => absurd hf Bool.false_ne_true, ?_⟩
    rintro ⟨i, hi⟩
    cases hi

theorem Boot.books (h : Boot s) : Books s fun _ => [] := by
  have hbits : ∀ c a, BitsOf (fun _ => 0) (cpuQueues (fun _ => []) c) a := by
    intro c a p _
    refine ⟨fun hp => ?_, fun ⟨_, hne⟩ => absurd rfl hne⟩
    simp [testPrioBit] at hp
  refine ⟨h.lists, fun c => ?_⟩
  rw [h.rqs c]
  constructor
  · rfl
  · intro i t ht
    cases ht
  · intro i
    rfl
  · exact hbits c _
  · exact hbits c _
  · simp [initRq, cpuQueues]
  · simp [initRq, cpuQueues]

/-- **Every step that meets the condition keeps the books.** -/
theorem step_books {a : Op} (hb : ∃ q, Books s q) (hok : StepOk s a) : ∃ q, Books (step s a) q := by
  obtain ⟨q, hb⟩ := hb
  cases a with
  | enqueue c t => exact hb.enqueueTask hok.1 hok.2 c
  | dequeue c t => exact hb.dequeueTask hok
  | expire c t => exact hok.elim
  | swap c => exact ⟨q, hb.swapArrays c⟩
  | pick c => exact ⟨q, hb.swapIfEmpty c⟩
  | schedule c => exact hb.scheduleImpl hok
  | setscheduler t policy prio => exact hb.schedSetscheduler hok
  | touch t state timeSlice => exact ⟨q, hb.setTask rfl fun _ => rfl⟩

/-- **The books are right in every state a run of such steps reaches.** -/
theorem books_of_run (l : List Op) (s s' : State) (h0 : machine.init s) (h : machine.RunOk StepOk s l s') :
    ∃ q, Books s' q := by
  refine machine.runOk_invariant (P := fun s => ∃ q, Books s q) (fun s a s' hb hok hs => ?_) l s s' ⟨_, h0.books⟩ h
  cases hs
  exact step_books hb hok

/-- A task with the values of `task_create` that has not run yet. -/
def newTask : Task := ⟨taskInterruptible, false, 120, 120, 0, schedNormal, 100, 0, .allOnes 64⟩

/-- An empty scheduler. -/
def bootState : State where
  rqs := initRq
  tasks := fun _ => newTask
  links := ⟨id, id⟩

theorem bootState_boot : Boot bootState := ⟨fun _ => rfl, fun _ => rfl, fun _ => ⟨rfl, rfl⟩⟩

theorem runOk_cons {a : Op} {l : List Op} (hok : StepOk s a) (h : machine.RunOk StepOk (step s a) l s') :
    machine.RunOk StepOk s (a :: l) s' := ⟨hok, _, rfl, h⟩

theorem prevOk_none (h : (s.rqs c).curr = none) : PrevOk s c := by
  intro prev hprev
  rw [h] at hprev
  cases hprev

theorem prevOk_some {p : Nat} (h : (s.rqs c).curr = some p) (hact : OnActive s c p)
    (hslice : (s.tasks p).timeSlice ≠ 0) : PrevOk s c := by
  intro prev hprev _
  rw [h] at hprev
  cases hprev
  exact ⟨fun _ => hact, fun _ => ⟨hslice, hact.1⟩⟩

/-- Two tasks are queued and run in turn, and one moves to a real-time priority. -/
def turns : List Op :=
  [.enqueue 0 1, .enqueue 0 2, .schedule 0, .touch 1 taskRunning 50, .schedule 0, .setscheduler 2 schedFifo 5, .dequeue 0 2]

theorem books_of_run_turns :
    machine.RunOk StepOk bootState turns (turns.foldl step bootState) ∧ ∃ q, Books (turns.foldl step bootState) q := by
  have h : machine.RunOk StepOk bootState turns (turns.foldl step bootState) := by
    refine runOk_cons ⟨by decide +kernel, by decide +kernel⟩ (runOk_cons ⟨by decide +kernel, by decide +kernel⟩ ?_)
    refine runOk_cons (prevOk_none (by decide +kernel)) (runOk_cons trivial ?_)
    refine runOk_cons (prevOk_some (by decide +kernel : _ = some 1) ⟨by decide +kernel, 1, by decide +kernel⟩
      (by decide +kernel)) ?_
    refine runOk_cons (fun _ => ⟨⟨by decide +kernel, 1, by decide +kernel⟩, by decide +kernel⟩) ?_
    exact runOk_cons ⟨by decide +kernel, 1, by decide +kernel⟩ rfl
  exact ⟨h, books_of_run _ _ _ bootState_boot h⟩

/-- One task is queued, runs until its slice is used up, and is expired. -/
def expiry : List Op := [.enqueue 0 1, .schedule 0, .touch 1 taskRunning 0, .schedule 0]

/-- The rings of CPU 0 after it: the task alone, on the expired array. -/
theorem expiry_entries : ∀ i : Bool × Fin 140,
    (expiry.foldl step bootState).links.entries (QIdx.head ⟨0, i.1, i.2⟩) 3 =
      some ((if i = (true, 120) then [1] else []).map Node.task) := by
  decide +kernel

/-- **`expire_task` loses the task's load**: one queued task of priority 120, and a load of 0. -/
theorem not_books_of_expiry :
    machine.init bootState ∧ machine.run bootState expiry = some (expiry.foldl step bootState) ∧
      ¬ ∃ q, Books (expiry.foldl step bootState) q := by
  refine ⟨bootState_boot, rfl, ?_⟩
  rintro ⟨q, hb⟩
  have hq : cpuQueues q 0 = fun i => if i = (true, 120) then [1] else [] := by
    funext i
    have h := (hb.lists.rings.ring ⟨0, i.1, i.2⟩).entries_eq (expiry_entries i)
    exact (List.map_injective_iff.2 task_injective h).symm
  have hload := (hb.acct 0).load
  rw [hq] at hload
  exact absurd hload (by decide +kernel)

/-! ## The search in a bitmap -/

/-- `__builtin_ctzll` counts the zeros below the lowest set bit. -/
theorem ctz_lowest {w : BitVec 64} (h : w ≠ 0) :
    ctz w < 64 ∧ w.getLsbD (ctz w) = true ∧ ∀ i, i < ctz w → w.getLsbD i = false := by
  unfold ctz
  cases hf : (List.range 64).find? fun i => w.getLsbD i with
  | none =>
    refine absurd (BitVec.eq_of_getLsbD_eq fun i hi => ?_) h
    have := List.find?_eq_none.1 hf i (List.mem_range.2 hi)
    simpa using this
  | some i =>
    have hlt := List.mem_range.1 (List.mem_of_find?_eq_some hf)
    refine ⟨hlt, List.find?_some hf, fun j hj => ?_⟩
    have hj' : j < i := hj
    simpa using (List.find?_range_eq_some.1 hf).2.2 j hj'

theorem testPrioBit_word (bitmap : Bitmap) (i k : Nat) (hk : k < 64) :
    testPrioBit bitmap ((i * 64 + k : Nat) : Int) = (bitmap i).getLsbD k := by
  have h1 : (i * 64 + k) / 64 = i := by omega
  have h2 : (i * 64 + k) % 64 = k := by omega
  rw [testPrioBit, tdiv_natCast, tmod_natCast, h1, h2]

/-- **What the search over `n` words from the `i`-th on finds**: the lowest bit set in them. -/
theorem findFrom_spec (bitmap : Bitmap) : ∀ (n i : Nat),
    (findFrom bitmap n i = none ∧ ∀ r, i * 64 ≤ r → r < (i + n) * 64 → testPrioBit bitmap (r : Nat) = false) ∨
      ∃ p : Nat, findFrom bitmap n i = some (p : Int) ∧ i * 64 ≤ p ∧ p < (i + n) * 64 ∧
        testPrioBit bitmap (p : Nat) = true ∧ ∀ r, i * 64 ≤ r → r < p → testPrioBit bitmap (r : Nat) = false
  | 0, i => .inl ⟨rfl, fun r h1 h2 => by omega⟩
  | n + 1, i => by
    unfold findFrom
    by_cases hw : bitmap i ≠ 0
    · rw [if_pos hw]
      obtain ⟨hlt, hbit, hlow⟩ := ctz_lowest hw
      refine .inr ⟨i * 64 + ctz (bitmap i), by push_cast; rfl, by omega, by omega, ?_, fun r h1 h2 => ?_⟩
      · rw [testPrioBit_word _ _ _ hlt]
        exact hbit
      · have hr : r = i * 64 + (r - i * 64) := by omega
        rw [hr, testPrioBit_word _ _ _ (by omega)]
        exact hlow _ (by omega)
    · rw [if_neg hw]
      have hzero : ∀ r, i * 64 ≤ r → r < (i + 1) * 64 → testPrioBit bitmap (r : Nat) = false := by
        intro r h1 h2
        have hr : r = i * 64 + (r - i * 64) := by omega
        rw [hr, testPrioBit_word _ _ _ (by omega), not_not.1 hw]
        simp
      have hskip : ∀ r, i * 64 ≤ r → r < (i + 1) * 64 ∨ (i + 1) * 64 ≤ r := fun r _ => by omega
      rcases findFrom_spec bitmap n (i + 1) with ⟨hnone, hall⟩ | ⟨p, hp, h1, h2, hbit, hlow⟩
      · refine .inl ⟨hnone, fun r h1 h2 => ?_⟩
        rcases hskip r h1 with h | h
        · exact hzero r h1 h
        · exact hall r h (by omega)
      · refine .inr ⟨p, hp, by omega, by omega, hbit, fun r hr hrp => ?_⟩
        rcases hskip r hr with h | h
        · exact hzero r hr h
        · exact hlow r h hrp

end Sched
end Pico
