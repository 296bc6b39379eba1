import Picomimi.Lib.Levels
import Picomimi.SchedRun
/-!
# SchedPick — the task `pick_next_task` returns

The bitmap search finds the lowest set bit (`findFrom_spec`), and with bitmaps that show the non-empty lists (`Ready`) that
is the lowest non-empty queue.  `Picks` says what the pick is for: the head of that queue, first of the
active array and then of the expired one, which becomes the active one.  `queued_in_order` says that the head is the task
queued longest: whoever is queued joins at the tail.
-/
namespace Pico
namespace Sched

open Lib Lib.Levels

variable {s s' : State} {q : QIdx → List Nat} {c t : Nat} {a : Bool} {p : Fin 140}

/-! ## The lowest queue -/

/-- **A bitmap of the non-empty lists leads to the lowest one.** -/
theorem BitsOf.find {bitmap : Bitmap} {qs : Bool × Fin 140 → List Nat} (h : BitsOf bitmap qs a) :
    (findFirstSetBit bitmap = none ∧ ∀ p, qs (a, p) = []) ∨
      ∃ p : Fin 140, findFirstSetBit bitmap = some ((p : Nat) : Int) ∧ Lowest (fun r => qs (a, r)) p := by
  have hempty : ∀ r : Fin 140, testPrioBit bitmap ((r : Nat) : Int) = false → qs (a, r) = [] := by
    intro r hr
    by_contra hne
    rw [(h r (by omega)).2 ⟨r.isLt, hne⟩] at hr
    cases hr
  rcases findFrom_spec bitmap 8 0 with ⟨hnone, hall⟩ | ⟨p, hp, -, hlt, hbit, hlow⟩
  · exact .inl ⟨hnone, fun r => hempty r (hall r (by omega) (by omega))⟩
  · obtain ⟨hp140, hne⟩ := (h p hlt).1 hbit
    exact .inr ⟨⟨p, hp140⟩, hp, hne, fun r hr => hempty r (hlow r (by omega) hr)⟩

/-! ## The pick -/

/-- **What `pick_next_task` relies on**: the lists of the run queue, its two arrays, and for each array a bitmap of the lists
that are not empty. -/
structure Ready (s : State) (q : QIdx → List Nat) (c : Nat) : Prop where
  lists : Lists s q
  arrays : (s.rqs c).expired = !(s.rqs c).active
  activeBits : BitsOf (s.rqs c).activeBitmap (cpuQueues q c) (s.rqs c).active
  expiredBits : BitsOf (s.rqs c).expiredBitmap (cpuQueues q c) (s.rqs c).expired

/-- The representation invariant says more than that. -/
theorem Books.ready (hb : Books s q) (c : Nat) : Ready s q c :=
  ⟨hb.lists, (hb.acct c).arrays, (hb.acct c).activeBits, (hb.acct c).expiredBits⟩

/-- The queues of one of the two arrays of CPU `c`. -/
def arrayOf (q : QIdx → List Nat) (c : Nat) (a : Bool) : Fin 140 → List Nat := fun p => q ⟨c, a, p⟩

/-- **The arrays have changed places**: the lists of tasks stay behind the heads they were behind, what was active is
expired and what was expired active, and nothing else is different. -/
structure Swapped (s s' : State) (c : Nat) : Prop where
  rq : s'.rqs c =
    { s.rqs c with
      active := (s.rqs c).expired
      expired := (s.rqs c).active
      activeBitmap := (s.rqs c).expiredBitmap
      expiredBitmap := (s.rqs c).activeBitmap }
  others : ∀ d, d ≠ c → s'.rqs d = s.rqs d
  tasks : s'.tasks = s.tasks
  links : s'.links = s.links

/-- **What the pick is for**: the head of the lowest non-empty queue of the active array; of the expired array when the
active one is empty, and the two change places; the idle task when both are. -/
inductive Picks (s : State) (q : QIdx → List Nat) (c : Nat) : Option Nat × State → Prop
  | active (p : Fin 140) (t : Nat) (rest : List Nat) (h : Lowest (arrayOf q c (s.rqs c).active) p)
      (hq : arrayOf q c (s.rqs c).active p = t :: rest) : Picks s q c (some t, s)
  | expired (p : Fin 140) (t : Nat) (rest : List Nat) (s' : State) (hempty : ∀ p, arrayOf q c (s.rqs c).active p = [])
      (h : Lowest (arrayOf q c (s.rqs c).expired) p) (hq : arrayOf q c (s.rqs c).expired p = t :: rest)
      (hs : Swapped s s' c) (hr : Ready s' q c) : Picks s q c (some t, s')
  | idle (hempty : ∀ a p, arrayOf q c a p = []) : Picks s q c ((s.rqs c).idle, s)

theorem swapArrays_swapped (s : State) (c : Nat) : Swapped s (swapArrays s c) c := by
  refine ⟨?_, fun d hd => ?_, rfl, rfl⟩
  · simp only [swapArrays, State.setRq, Function.update_self]
  · simp only [swapArrays, State.setRq, Function.update_of_ne hd]

theorem Ready.swapArrays (h : Ready s q c) : Ready (Sched.swapArrays s c) q c := by
  have hrq := (swapArrays_swapped s c).rq
  refine ⟨h.lists.setRq c _, ?_, ?_, ?_⟩
  · rw [hrq]
    show (s.rqs c).active = !(s.rqs c).expired
    rw [h.arrays, Bool.not_not]
  · rw [hrq]
    exact h.expiredBits
  · rw [hrq]
    exact h.activeBits

/-- The node behind a queue head. -/
theorem Ready.next_head (h : Ready s q c) {rest : List Nat} (hq : arrayOf q c a p = t :: rest) :
    s.links.listEmpty (.queue c a (p : Nat)) = false ∧ s.links.next (.queue c a (p : Nat)) = .task t := by
  have hring := h.lists.rings.ring ⟨c, a, p⟩
  have hq' : q ⟨c, a, p⟩ = t :: rest := hq
  rw [hq', List.map_cons] at hring
  refine ⟨?_, hring.next_cons⟩
  rw [← Bool.not_eq_true]
  intro hempty
  exact absurd (hring.listEmpty.1 hempty) (List.cons_ne_nil _ _)

/-- The first task of an array that has one. -/
theorem Ready.firstTask (h : Ready s q c) {rest : List Nat} (hlow : Lowest (arrayOf q c (s.rqs c).active) p)
    (hq : arrayOf q c (s.rqs c).active p = t :: rest) : Sched.firstTask s c = some t := by
  have hfind : findFirstSetBit (s.rqs c).activeBitmap = some ((p : Nat) : Int) := by
    rcases h.activeBits.find with ⟨-, hall⟩ | ⟨r, hr, hlr⟩
    · exact absurd (hall p) hlow.1
    · have hpr : r = p := by
        rcases lt_trichotomy r p with hlt | heq | hlt
        · exact absurd (hlow.2 r hlt) hlr.1
        · exact heq
        · exact absurd (hlr.2 p hlt) hlow.1
      rw [hr, hpr]
  obtain ⟨hne, hnext⟩ := h.next_head hq
  simp only [Sched.firstTask, hfind, hne, hnext]
  rfl

theorem Ready.firstTask_idle (h : Ready s q c) (hempty : ∀ p, arrayOf q c (s.rqs c).active p = []) :
    Sched.firstTask s c = (s.rqs c).idle := by
  rcases h.activeBits.find with ⟨hfind, -⟩ | ⟨r, -, hr⟩
  · simp only [Sched.firstTask, hfind]
  · exact absurd (hempty r) hr.1

theorem Ready.picks (h : Ready s q c) : Picks s q c (pickNextTask s c) := by
  unfold pickNextTask Sched.swapIfEmpty
  rcases h.activeBits.find with ⟨hfind, hempty⟩ | ⟨r, hr, hlr⟩
  · rcases h.expiredBits.find with ⟨hfind', hempty'⟩ | ⟨r', hr', hlr'⟩
    · rw [hfind, hfind', if_neg (by decide), h.firstTask_idle hempty]
      refine .idle fun a p => ?_
      by_cases ha : a = (s.rqs c).active
      · rw [ha]
        exact hempty p
      · rw [Bool.eq_not_of_ne ha, ← h.arrays]
        exact hempty' p
    · rw [hfind, hr', if_pos (by rfl)]
      obtain ⟨t, rest, hq⟩ := List.exists_cons_of_ne_nil hlr'.1
      have hswap := swapArrays_swapped s c
      have hact : ((Sched.swapArrays s c).rqs c).active = (s.rqs c).expired := by rw [hswap.rq]
      have hfirst : Sched.firstTask (Sched.swapArrays s c) c = some t := by
        refine h.swapArrays.firstTask (p := r') ?_ (Eq.trans ?_ hq)
        · rw [hact]
          exact hlr'
        · rw [hact]
          rfl
      rw [hfirst]
      exact .expired r' t rest _ hempty hlr' hq hswap h.swapArrays
  · rw [hr, if_neg (by simp)]
    obtain ⟨t, rest, hq⟩ := List.exists_cons_of_ne_nil hlr.1
    rw [h.firstTask hlr hq]
    exact .active r t rest hlr hq

/-- A task that is picked from a queue stands at its head. -/
theorem Picks.head {r : Option Nat × State} (hp : Picks s q c r) (hl : Lists s q) {i : QIdx} (hr : r.1 = some t)
    (hi : i.cpu = c) (ht : t ∈ q i) : ∃ rest, q i = t :: rest := by
  cases hp with
  | active p u rest _ hq =>
    cases hr
    have hiq : i = ⟨c, (s.rqs c).active, p⟩ := hl.unique ht (by rw [show q _ = _ from hq]; exact List.mem_cons_self)
    exact ⟨rest, hiq ▸ hq⟩
  | expired p u rest s' _ _ hq _ _ =>
    cases hr
    have hiq : i = ⟨c, (s.rqs c).expired, p⟩ := hl.unique ht (by rw [show q _ = _ from hq]; exact List.mem_cons_self)
    exact ⟨rest, hiq ▸ hq⟩
  | idle hempty =>
    have hnil : q i = [] := by
      have := hempty i.arr i.prio
      rwa [arrayOf, ← hi] at this
    rw [hnil] at ht
    cases ht

/-- **`pick_next_task` is first-in-first-out within the highest priority**: it picks the head of the lowest non-empty queue,
by any clock that ordered the queues the one queued longest; and it returns the idle task, which is on no queue, only when
both arrays are empty. -/
theorem pickNextTask_picks (h : Ready s q c) :
    Picks s q c (pickNextTask s c) ∧
      (∀ since : Nat → Nat, InOrder since q → ∀ i t, i.cpu = c → t ∈ q i → (pickNextTask s c).1 = some t →
        ∀ u ∈ q i, u ≠ t → since t < since u) ∧
      ((∀ t, (s.rqs c).idle = some t → (s.tasks t).onRq = false) → (pickNextTask s c).1 = (s.rqs c).idle →
        ∀ a p, arrayOf q c a p = []) := by
  have hp := h.picks
  refine ⟨hp, fun since hord i t hi ht hr u hu hut => ?_, fun hoff hr => ?_⟩
  · obtain ⟨rest, hq⟩ := hp.head h.lists hr hi ht
    rw [hq] at hu
    exact hord.head_lt hq u ((List.mem_cons.1 hu).resolve_left hut)
  · have hqueued : ∀ a p t rest, arrayOf q c a p = t :: rest → (s.rqs c).idle ≠ some t := by
      intro a p t rest hq hidle
      have hon := (h.lists.onRq t).2 ⟨⟨c, a, p⟩, by rw [show q _ = _ from hq]; exact List.mem_cons_self⟩
      rw [hoff t hidle] at hon
      cases hon
    generalize pickNextTask s c = r at hp hr
    cases hp with
    | active p t rest _ hq => exact absurd hr.symm (hqueued _ p t rest hq)
    | expired p t rest s' _ _ hq _ _ => exact absurd hr.symm (hqueued _ p t rest hq)
    | idle hempty => exact hempty

/-- Two tasks are queued, and their array expires. -/
def expiredPair : State := [Op.enqueue 0 1, .enqueue 0 2, .swap 0].foldl step bootState

theorem pickNextTask_picks_expiredPair : (pickNextTask expiredPair 0).1 = some 1 ∧
    (pickNextTask (pickNextTask expiredPair 0).2 0).1 = some 1 ∧
    ∃ q, Ready expiredPair q 0 ∧ Picks expiredPair q 0 (pickNextTask expiredPair 0) := by
  refine ⟨by decide +kernel, by decide +kernel, ?_⟩
  obtain ⟨q1, h1⟩ := bootState_boot.books.enqueueTask (t := 1) (by decide +kernel) (by decide +kernel) 0
  obtain ⟨q2, h2⟩ := h1.enqueueTask (t := 2) (by decide +kernel) (by decide +kernel) 0
  have hready : Ready expiredPair q2 0 := (h2.swapArrays 0).ready 0
  exact ⟨q2, hready, (pickNextTask_picks hready).1⟩

/-! ## The order of the queues -/

/-- The previous task, when `schedule_impl` queues it again. -/
def requeued (s : State) (c : Nat) : Option Nat :=
  (s.rqs c).curr.filter fun prev => some prev ≠ (s.rqs c).idle ∧ (s.tasks prev).state = taskRunning

/-- The task a step puts at the tail of a queue. -/
def queuedBy (s : State) : Op → Option Nat
  | .enqueue _ t | .expire _ t => some t
  | .schedule c => requeued s c
  | .setscheduler t policy prio => if (s.tasks t).onRq ∧ (setPolicy (s.tasks t) policy prio).isSome then some t else none
  | .dequeue _ _ | .swap _ | .pick _ | .touch _ _ _ => none

/-- The scheduler beside a clock that counts the steps, and the time each task was last put on a queue. -/
structure Clocked where
  state : State
  since : Nat → Nat
  now : Nat

def stamp (since : Nat → Nat) (now : Nat) : Option Nat → Nat → Nat
  | none => since
  | some t => Function.update since t now

def clockedMachine : Machine Clocked Op where
  init s := Boot s.state
  step s a := some ⟨step s.state a, stamp s.since s.now (queuedBy s.state a), s.now + 1⟩

/-- **The step queues a task that is on no queue**, under a priority that indexes one, and takes off a task that is on one. -/
def QueueOk (s : State) : Op → Prop
  | .enqueue _ t | .expire _ t => (s.tasks t).onRq = false ∧ PrioOk (s.tasks t)
  | .dequeue _ t => (s.tasks t).onRq = true
  | .schedule c => ∀ prev, (s.rqs c).curr = some prev → (s.tasks prev).state = taskRunning → PrioOk (s.tasks prev)
  | .setscheduler t policy prio => (s.tasks t).onRq = true → ∀ task ∈ setPolicy (s.tasks t) policy prio, PrioOk task
  | .swap _ | .pick _ | .touch _ _ _ => True

/-- **The lists are in the order of the clock.** -/
structure Timed (s : State) (since : Nat → Nat) (now : Nat) (q : QIdx → List Nat) : Prop where
  lists : Lists s q
  order : InOrder since q
  past : ∀ i, ∀ t ∈ q i, since t < now

variable {since : Nat → Nat} {now : Nat}

/-- Time passes, and no list changes. -/
theorem Timed.later (h : Timed s since now q) (hl : Lists s' q) : Timed s' since (now + 1) q :=
  ⟨hl, h.order, fun i t ht => Nat.lt_succ_of_lt (h.past i t ht)⟩

/-- A task joins at the tail of a list. -/
theorem Timed.join (h : Timed s since now q) (hoff : (s.tasks t).onRq = false) {i : QIdx}
    (hl : Lists s' (Function.update q i (q i ++ [t]))) : ∃ q', Timed s' (Function.update since t now) (now + 1) q' := by
  have hno : ∀ j, t ∉ q j := by
    intro j hj
    rw [(h.lists.onRq t).2 ⟨j, hj⟩] at hoff
    cases hoff
  have hfresh : ∀ j, ∀ u ∈ q j, Function.update since t now u < now + 1 := by
    intro j u hu
    rw [Function.update_of_ne]
    · exact Nat.lt_succ_of_lt (h.past j u hu)
    · rintro rfl
      exact hno j hu
  refine ⟨_, hl, h.order.join h.past hno, fun j u hu => ?_⟩
  by_cases hj : j = i
  · subst hj
    rw [Function.update_self] at hu
    rcases List.mem_append.1 hu with hu | hu
    · exact hfresh j u hu
    · rw [List.mem_singleton.1 hu, Function.update_self]
      exact Nat.lt_succ_self now
  · rw [Function.update_of_ne hj] at hu
    exact hfresh j u hu

theorem Timed.enqueueTask (h : Timed s since now q) (hoff : (s.tasks t).onRq = false) (hok : PrioOk (s.tasks t)) (c : Nat) :
    ∃ q', Timed (Sched.enqueueTask s c t) (Function.update since t now) (now + 1) q' := by
  obtain ⟨p, hp⟩ := hok.fin
  exact h.join hoff (h.lists.enqueueTask hoff c hp)

theorem Timed.expireTask (h : Timed s since now q) (hoff : (s.tasks t).onRq = false) (hok : PrioOk (s.tasks t)) (c : Nat) :
    ∃ q', Timed (Sched.expireTask s c t) (Function.update since t now) (now + 1) q' := by
  obtain ⟨p, hp⟩ := hok.fin
  exact h.join hoff (h.lists.expireTask hoff c hp)

theorem Timed.dequeueTask (h : Timed s since now q) (hon : (s.tasks t).onRq = true) (c : Nat) :
    ∃ q', Timed (Sched.dequeueTask s c t) since now q' := by
  obtain ⟨i, hi⟩ := (h.lists.onRq t).1 hon
  refine ⟨_, h.lists.dequeueTask hi c, h.order.leave, fun j u hu => ?_⟩
  by_cases hj : j = i
  · subst hj
    rw [Function.update_self] at hu
    exact h.past j u (List.mem_of_mem_erase hu)
  · rw [Function.update_of_ne hj] at hu
    exact h.past j u hu

theorem Timed.congr (h : Timed s since now q) (hl : Lists s' q) : Timed s' since now q := ⟨hl, h.order, h.past⟩

theorem Timed.requeuePrev (h : Timed s since now q)
    (hok : ∀ prev, (s.rqs c).curr = some prev → some prev ≠ (s.rqs c).idle → (s.tasks prev).onRq = false ∧
      ((s.tasks prev).state = taskRunning → PrioOk (s.tasks prev))) :
    ∃ q', Timed (Sched.requeuePrev s c) (stamp since now (requeued s c)) (now + 1) q' := by
  unfold Sched.requeuePrev requeued
  cases hcurr : (s.rqs c).curr with
  | none => exact ⟨q, h.later h.lists⟩
  | some prev =>
    simp only
    by_cases hidle : some prev ≠ (s.rqs c).idle
    · obtain ⟨hoff, hprio⟩ := hok prev hcurr hidle
      rw [if_pos hidle]
      by_cases hrun : (s.tasks prev).state = taskRunning
      · rw [if_pos hrun, Option.filter_some_pos (by simpa using ⟨hidle, hrun⟩)]
        by_cases hslice : (s.tasks prev).timeSlice = 0
        · rw [if_pos hslice]
          have hl : Lists (s.setTask prev { s.tasks prev with timeSlice := 100 }) q := h.lists.setTask rfl
          refine (h.congr hl).expireTask ?_ ?_ c
          · simpa [State.setTask] using hoff
          · simpa [State.setTask, PrioOk] using hprio hrun
        · rw [if_neg hslice]
          exact h.enqueueTask hoff (hprio hrun) c
      · rw [if_neg hrun, Option.filter_some_neg (by simp [hrun])]
        exact ⟨q, h.later h.lists⟩
    · rw [if_neg hidle, Option.filter_some_neg (by simp [not_not.1 hidle])]
      exact ⟨q, h.later h.lists⟩

/-- **`schedule_impl` puts the previous task, if it is still runnable, behind all the others.** -/
theorem Timed.scheduleImpl (h : Timed s since now q) (hok : QueueOk s (.schedule c)) :
    ∃ q', Timed (Sched.scheduleImpl s c) (stamp since now (requeued s c)) (now + 1) q' := by
  obtain ⟨hcurr, hidle, hprev, hput⟩ := putPrev_spec s c
  obtain ⟨q1, h1⟩ : ∃ q', Timed (Sched.putPrev s c) since now q' := by
    rcases hput with hput | ⟨prev, -, -, hon, hput⟩
    · rw [hput]
      exact ⟨q, h⟩
    · rw [hput]
      exact h.dequeueTask hon c
  have h2 := h1.congr (h1.lists.swapIfEmpty c)
  obtain ⟨hc2, hi2⟩ := swapIfEmpty_curr (Sched.putPrev s c) c c
  rw [hcurr] at hc2
  rw [hidle] at hi2
  have hsame : requeued (Sched.swapIfEmpty (Sched.putPrev s c) c) c = requeued s c := by
    unfold requeued
    rw [hc2, hi2, swapIfEmpty_tasks]
    cases hpc : (s.rqs c).curr with
    | none => rfl
    | some prev =>
      by_cases hne : some prev = (s.rqs c).idle
      · rw [Option.filter_some_neg (by simp [hne]), Option.filter_some_neg (by simp [hne])]
      · simp [Option.filter_some, hprev prev hpc hne]
  obtain ⟨q3, h3⟩ := h2.requeuePrev fun prev hpc hne => by
    rw [hc2] at hpc
    rw [hi2] at hne
    rw [swapIfEmpty_tasks, hprev prev hpc hne]
    exact ⟨rfl, hok prev hpc⟩
  rw [hsame] at h3
  exact ⟨q3, h3.congr (h3.lists.setRq c _)⟩

/-- **`sched_setscheduler` puts a queued task behind all the others of its new priority.** -/
theorem Timed.schedSetscheduler (h : Timed s since now q) {policy prio : Int}
    (hok : QueueOk s (.setscheduler t policy prio)) :
    ∃ q', Timed (Sched.schedSetscheduler s t policy prio).1
      (stamp since now (queuedBy s (.setscheduler t policy prio))) (now + 1) q' := by
  unfold Sched.schedSetscheduler
  cases hon : (s.tasks t).onRq with
  | false =>
    have hq : queuedBy s (.setscheduler t policy prio) = none := by simp [queuedBy, hon]
    rw [hq]
    simp only [Bool.false_eq_true, if_false]
    cases hset : setPolicy (s.tasks t) policy prio with
    | none => exact ⟨q, h.later (h.lists.setTask rfl)⟩
    | some task =>
      have hsame := setPolicy_onRq hset
      exact ⟨q, h.later (h.lists.setTask hsame)⟩
  | true =>
    have hnew := hok hon
    obtain ⟨q1, h1⟩ := h.dequeueTask hon (s.tasks t).cpu
    have htask : ((Sched.dequeueTask s (s.tasks t).cpu t).tasks t) = { s.tasks t with onRq := false } := by
      rw [dequeueTask_tasks, if_pos rfl]
    simp only [if_true, htask, setPolicy_with_onRq]
    cases hset : setPolicy (s.tasks t) policy prio with
    | none =>
      have hq : queuedBy s (.setscheduler t policy prio) = none := by simp [queuedBy, hset]
      rw [hq]
      exact ⟨q1, h1.later (h1.lists.setTask (by rw [htask]))⟩
    | some task =>
      have hprio : PrioOk task := hnew task hset
      have hq : queuedBy s (.setscheduler t policy prio) = some t := by simp [queuedBy, hset, hon]
      rw [hq]
      simp only [Option.map_some]
      have hoff : ({ { task with onRq := false } with
          timeSlice := calculateTimeslice { task with onRq := false } } : Task).onRq =
            ((Sched.dequeueTask s (s.tasks t).cpu t).tasks t).onRq := by rw [htask]
      refine (h1.congr (h1.lists.setTask hoff)).enqueueTask ?_ ?_ _
      · simp only [State.setTask, Function.update_self]
      · simpa [State.setTask, PrioOk] using hprio

/-- **Every queue is in the order of queueing** after every run whose steps queue tasks that are on no queue: the head of a
queue is the one that has been on it longest. -/
theorem queued_in_order (l : List Op) (s s' : Clocked) (h0 : clockedMachine.init s)
    (h : clockedMachine.RunOk (fun s => QueueOk s.state) s l s') : ∃ q, Lists s'.state q ∧ InOrder s'.since q := by
  have hinit : ∃ q, Timed s.state s.since s.now q := ⟨_, Boot.lists h0, fun _ => List.Pairwise.nil, fun _ _ ht => by cases ht⟩
  obtain ⟨q, hq⟩ := clockedMachine.runOk_invariant (P := fun s => ∃ q, Timed s.state s.since s.now q) (fun s a s' hP hok hs => by
    cases hs
    obtain ⟨q, hq⟩ := hP
    cases a with
    | enqueue c t => exact hq.enqueueTask hok.1 hok.2 c
    | dequeue c t =>
      obtain ⟨q', h'⟩ := hq.dequeueTask hok c
      exact ⟨q', h'.later h'.lists⟩
    | expire c t => exact hq.expireTask hok.1 hok.2 c
    | swap c => exact ⟨q, hq.later (hq.lists.setRq c _)⟩
    | pick c => exact ⟨q, hq.later (hq.lists.swapIfEmpty c)⟩
    | schedule c => exact hq.scheduleImpl hok
    | setscheduler t policy prio => exact hq.schedSetscheduler hok
    | touch t state timeSlice => exact ⟨q, hq.later (hq.lists.setTask rfl)⟩) l s s' hinit h
  exact ⟨q, hq.lists, hq.order⟩

theorem queued_in_order_two : ∃ s', clockedMachine.RunOk (fun s => QueueOk s.state) ⟨bootState, fun _ => 0, 0⟩
    [.enqueue 0 1, .enqueue 0 2] s' ∧ ∃ q, Lists s'.state q ∧ InOrder s'.since q := by
  have hok : clockedMachine.RunOk (fun s => QueueOk s.state) ⟨bootState, fun _ => 0, 0⟩ [.enqueue 0 1, .enqueue 0 2] _ :=
    ⟨⟨by decide +kernel, by decide +kernel⟩, _, rfl, ⟨by decide +kernel, by decide +kernel⟩, _, rfl, rfl⟩
  have h0 : clockedMachine.init ⟨bootState, fun _ => 0, 0⟩ := bootState_boot
  exact ⟨_, hok, queued_in_order _ _ _ h0 hok⟩

end Sched
end Pico
