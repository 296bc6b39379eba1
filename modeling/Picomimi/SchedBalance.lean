import Mathlib.Algebra.Order.BigOperators.Group.Finset
import Mathlib.Algebra.BigOperators.Group.Multiset.Basic
import Picomimi.SchedSmp
/-!
# SchedBalance — one pass of `sched_load_balance`

A pass takes the busiest run queue and moves tasks from it one at a time with `task_migrate`.  `RqInv` is the
representation invariant of one run queue, `Pulled` what a number of moves makes of a pair of them.  The totals of the
pair follow from the books once the tasks on the two of them are the same as before.
-/
namespace Pico
namespace Sched

open Lib

def nrCpus : Nat := 256
def lbIntervalTicks : Nat := 200

/-- One turn of the loop of `find_busiest_queue`: the queue found so far and its load. -/
def busier (s : State) (this : Nat) (acc : Option Nat × Nat) (cpu : Nat) : Option Nat × Nat :=
  if cpu = this then acc
  else if (s.rqs cpu).idle = none then acc        -- not yet online
  else if (s.rqs cpu).nrRunning ≤ 1 then acc
  else if acc.2 < (s.rqs cpu).load then (some cpu, (s.rqs cpu).load)
  else acc

def findBusiestQueue (s : State) (this : Nat) : Option Nat :=
  ((List.range nrCpus).foldl (busier s this) (none, add64 (s.rqs this).load lbImbalanceMin)).1

/-- `(s64)(jiffies - lb_next_balance[this_cpu]) < 0`. -/
def tooEarly (jiffies next : Nat) : Bool := decide (word64 / 2 ≤ sub64 jiffies next)

/-- `sched_load_balance` on CPU `this`, with `lb_next_balance`.  No result is a walk not done in `fuel` steps. -/
def schedLoadBalance (s : State) (lbNext : Nat → Nat) (jiffies this fuel : Nat) : Option (State × (Nat → Nat)) :=
  if tooEarly jiffies (lbNext this) then some (s, lbNext)
  else
    let lbNext := Function.update lbNext this (add64 (add64 jiffies lbIntervalTicks) (this * 7))
    match findBusiestQueue s this with
    | none => some (s, lbNext)
    | some src => (pullTasks src this fuel lbPullMax s).map fun s' => (s', lbNext)

/-- The representation invariant of run queue `c`. -/
structure RqInv (s : State) (q : QIdx → List Nat) (c : Nat) : Prop where
  acct : Acct (s.rqs c) s.tasks (cpuQueues q c)
  cpu : (s.rqs c).cpu = c

/-- The tasks on both arrays of a run queue. -/
def queued (q : QIdx → List Nat) (c : Nat) : Multiset Nat := ∑ i, (cpuQueues q c i : Multiset Nat)

/-- What `cpus_allowed` says of a CPU; a mask of zero pins the task nowhere. -/
def Permitted (task : Task) (cpu : Nat) : Prop := task.cpusAllowed = 0 ∨ task.cpusAllowed.getLsbD cpu = true

/-- **The tasks `moved` went from run queue `src` to run queue `dst`**, and nothing else happened to any task. -/
structure Pulled (s s' : State) (q q' : QIdx → List Nat) (src dst : Nat) (moved : List Nat) : Prop where
  nodup : moved.Nodup
  source : ∀ t ∈ moved, ∃ i, i.cpu = src ∧ t ∈ q i
  running : ∀ t ∈ moved, (s.tasks t).state = taskRunning
  notCurr : ∀ t ∈ moved, (s.rqs src).curr ≠ some t
  notIdle : ∀ t ∈ moved, (s.rqs src).idle ≠ some t
  permitted : ∀ t ∈ moved, Permitted (s.tasks t) dst
  dest : ∀ t ∈ moved, ∃ i, i.cpu = dst ∧ t ∈ q' i
  cpu : ∀ t ∈ moved, s'.tasks t = { s.tasks t with cpu := dst }
  rest : ∀ t, t ∉ moved → s'.tasks t = s.tasks t ∧ ∀ i, t ∈ q' i ↔ t ∈ q i
  taken : queued q' src + (moved : Multiset Nat) = queued q src
  given : queued q' dst = queued q dst + (moved : Multiset Nat)
  curr : (s'.rqs src).curr = (s.rqs src).curr ∧ (s'.rqs src).idle = (s.rqs src).idle
  lists : Lists s' q'
  srcInv : RqInv s' q' src
  dstInv : RqInv s' q' dst

/-- **A pass that moves work without losing it**: at most four moves, and the totals of the pair as they were, in the `u64`
the code adds them in and, while both fit in one, as numbers. -/
structure Balanced (s s' : State) (q q' : QIdx → List Nat) (src dst : Nat) (moved : List Nat) : Prop
    extends Pulled s s' q q' src dst moved where
  atMost : moved.length ≤ 4
  conserved : queued q' src + queued q' dst = queued q src + queued q dst
  nrRunning : add64 (s'.rqs src).nrRunning (s'.rqs dst).nrRunning = add64 (s.rqs src).nrRunning (s.rqs dst).nrRunning
  load : add64 (s'.rqs src).load (s'.rqs dst).load = add64 (s.rqs src).load (s.rqs dst).load
  nrRunningSum : Multiset.card (queued q src + queued q dst) < word64 →
    (s'.rqs src).nrRunning + (s'.rqs dst).nrRunning = (s.rqs src).nrRunning + (s.rqs dst).nrRunning
  loadSum : ((queued q src + queued q dst).map fun t => weight (s.tasks t)).sum < word64 →
    (s'.rqs src).load + (s'.rqs dst).load = (s.rqs src).load + (s.rqs dst).load

variable {s s' s'' : State} {q q' q'' : QIdx → List Nat} {c t src dst : Nat}

/-! ## The tasks on a run queue -/

theorem queued_update_of_ne {i : QIdx} (h : c ≠ i.cpu) (xs : List Nat) :
    queued (Function.update q i xs) c = queued q c := by
  unfold queued
  rw [cpuQueues_update_of_ne h]

theorem queued_update (i : QIdx) (xs : List Nat) :
    queued (Function.update q i xs) i.cpu + (q i : Multiset Nat) = queued q i.cpu + (xs : Multiset Nat) := by
  unfold queued
  rw [cpuQueues_update_self]
  exact sum_measure (fun xs => (xs : Multiset Nat)) (cpuQueues q i.cpu) (i.arr, i.prio) xs

theorem queued_append (i : QIdx) (t : Nat) :
    queued (Function.update q i (q i ++ [t])) i.cpu = queued q i.cpu + {t} := by
  have h := queued_update (q := q) i (q i ++ [t])
  rw [← Multiset.coe_add, Multiset.coe_singleton, ← add_assoc, add_right_comm] at h
  exact add_right_cancel h

theorem queued_erase {i : QIdx} (h : t ∈ q i) :
    queued (Function.update q i ((q i).erase t)) i.cpu + {t} = queued q i.cpu := by
  have hsplit : (q i : Multiset Nat) = ((q i).erase t : Multiset Nat) + {t} := by
    rw [← Multiset.coe_erase, add_comm, Multiset.singleton_add, Multiset.cons_erase (Multiset.mem_coe.2 h)]
  have hsum := queued_update (q := q) i ((q i).erase t)
  rw [hsplit, ← add_assoc, add_right_comm] at hsum
  exact add_right_cancel hsum

theorem card_queued (q : QIdx → List Nat) (c : Nat) :
    Multiset.card (queued q c) = ∑ i, (cpuQueues q c i).length := by
  unfold queued
  rw [Multiset.card_sum]
  rfl

theorem sum_map_sum {ι : Type} [Fintype ι] (f : Nat → Nat) (g : ι → List Nat) :
    ((∑ i, (g i : Multiset Nat)).map f).sum = ∑ i, ((g i).map f).sum := by
  have h := map_sum ((Multiset.sumAddMonoidHom : Multiset Nat →+ Nat).comp (Multiset.mapAddMonoidHom f))
    (fun i => (g i : Multiset Nat)) Finset.univ
  simp only [AddMonoidHom.comp_apply, Multiset.coe_mapAddMonoidHom, Multiset.coe_sumAddMonoidHom] at h
  exact h

theorem sum_map_queued (f : Nat → Nat) (q : QIdx → List Nat) (c : Nat) :
    ((queued q c).map f).sum = ∑ i, ((cpuQueues q c i).map f).sum := sum_map_sum f (cpuQueues q c)

theorem length_le_queued (q : QIdx → List Nat) (c : Nat) (a : Bool) (p : Fin 140) :
    (q ⟨c, a, p⟩).length ≤ Multiset.card (queued q c) := by
  rw [card_queued]
  exact Finset.single_le_sum (f := fun j => (cpuQueues q c j).length) (fun _ _ => Nat.zero_le _) (Finset.mem_univ (a, p))

/-- `nr_running` and `load` count what is on the run queue. -/
theorem RqInv.nrRunning (h : RqInv s q c) : (s.rqs c).nrRunning = Multiset.card (queued q c) % word64 := by
  rw [card_queued]
  exact h.acct.nrRunning

theorem RqInv.load (h : RqInv s q c) :
    (s.rqs c).load = ((queued q c).map fun t => weight (s.tasks t)).sum % word64 := by
  rw [sum_map_queued]
  exact h.acct.load

/-! ## One move -/

theorem findBusiest_ne {cpus : List Nat} : ∀ {acc : Option Nat × Nat}, acc.1 ≠ some c →
    (cpus.foldl (busier s c) acc).1 ≠ some c := by
  induction cpus with
  | nil => exact fun h => h
  | cons cpu cpus ih =>
    intro acc h
    refine ih ?_
    unfold busier
    repeat' split
    · exact h
    · exact h
    · exact h
    · rename_i hne _ _ _
      exact fun heq => hne (Option.some.inj heq)
    · exact h

/-- A CPU does not pull from itself. -/
theorem findBusiestQueue_ne (h : findBusiestQueue s c = some src) : src ≠ c := by
  rintro rfl
  exact findBusiest_ne (fun h => by cases h) h

theorem enqueueTask_rq (s : State) (c t d : Nat) :
    ((enqueueTask s c t).rqs d).cpu = (s.rqs d).cpu ∧ ((enqueueTask s c t).rqs d).curr = (s.rqs d).curr ∧
      ((enqueueTask s c t).rqs d).idle = (s.rqs d).idle := by
  simp only [enqueueTask, Function.update_apply]
  split
  · rename_i h
    exact h ▸ ⟨rfl, rfl, rfl⟩
  · exact ⟨rfl, rfl, rfl⟩

theorem countMigration_rq (s : State) (c d : Nat) :
    ((countMigration s c).rqs d).cpu = (s.rqs d).cpu ∧ ((countMigration s c).rqs d).curr = (s.rqs d).curr ∧
      ((countMigration s c).rqs d).idle = (s.rqs d).idle := by
  simp only [countMigration, State.setRq, Function.update_apply]
  split
  · rename_i h
    exact h ▸ ⟨rfl, rfl, rfl⟩
  · exact ⟨rfl, rfl, rfl⟩

theorem RqInv.enqueueTask {d : Nat} (h : RqInv s q d) (c : Nat) {p : Fin 140} (hp : (s.tasks t).prio = (p : Nat)) :
    RqInv (Sched.enqueueTask s c t)
      (Function.update q ⟨c, (s.rqs c).active, p⟩ (q ⟨c, (s.rqs c).active, p⟩ ++ [t])) d :=
  ⟨h.acct.enqueueTask c hp, (enqueueTask_rq s c t d).1.trans h.cpu⟩

/-- The idle task and the migrations are no part of the books. -/
theorem RqInv.setRq (h : RqInv s q c) (d n : Nat) (idle : Option Nat) :
    RqInv (s.setRq d { s.rqs d with nrMigrations := n, idle := idle }) q c := by
  obtain ⟨⟨h1, h2, h3, h4, h5, h6, h7⟩, hcpu⟩ := h
  by_cases hd : c = d
  · subst hd
    refine ⟨?_, ?_⟩
    · simp only [State.setRq, Function.update_self]
      exact ⟨h1, h2, h3, h4, h5, h6, h7⟩
    · simp only [State.setRq, Function.update_self]
      exact hcpu
  · refine ⟨?_, ?_⟩
    · simp only [State.setRq, Function.update_of_ne hd]
      exact ⟨h1, h2, h3, h4, h5, h6, h7⟩
    · simp only [State.setRq, Function.update_of_ne hd]
      exact hcpu

theorem RqInv.countMigration (h : RqInv s q c) (d : Nat) : RqInv (Sched.countMigration s d) q c := h.setRq d _ _

theorem dequeueTask_rq (s : State) (c t d : Nat) :
    ((dequeueTask s c t).rqs d).cpu = (s.rqs d).cpu ∧ ((dequeueTask s c t).rqs d).active = (s.rqs d).active := by
  simp only [dequeueTask, Function.update_apply]
  split
  · rename_i h
    exact h ▸ ⟨rfl, rfl⟩
  · exact ⟨rfl, rfl⟩

theorem RqInv.dequeueTask {d : Nat} (h : RqInv s q d) {p : Fin 140} (ht : t ∈ q ⟨c, (s.rqs c).active, p⟩) :
    RqInv (Sched.dequeueTask s c t)
      (Function.update q ⟨c, (s.rqs c).active, p⟩ ((q ⟨c, (s.rqs c).active, p⟩).erase t)) d :=
  ⟨h.acct.dequeueTask ht, (dequeueTask_rq s c t d).1.trans h.cpu⟩

/-- The CPU a task names is no part of the books. -/
theorem RqInv.setCpu (h : RqInv s q c) (t d : Nat) : RqInv (s.setTask t { s.tasks t with cpu := d }) q c := by
  refine ⟨h.acct.congr fun i u _ => ?_, h.cpu⟩
  simp only [State.setTask, Function.update_apply]
  split
  · rename_i hu
    rw [hu]
  · rfl

/-- What a move does to the tasks: one `cpu`. -/
theorem taskMigrate_tasks (hon : (s.tasks t).onRq = true) (u : Nat) :
    (taskMigrate s t src dst).tasks u =
      if u = t then { s.tasks t with cpu := ((dequeueTask s src t).rqs dst).cpu } else s.tasks u := by
  have hcount : ∀ (s : State) (c : Nat), (countMigration s c).tasks = s.tasks := fun _ _ => rfl
  simp only [taskMigrate, hon, if_true, hcount, enqueueTask_tasks, State.setTask]
  by_cases hu : u = t
  · subst hu
    simp only [if_true, Function.update_self, dequeueTask_tasks, hon]
  · simp only [if_neg hu, Function.update_of_ne hu, dequeueTask_tasks]

theorem taskMigrate_rq (hon : (s.tasks t).onRq = true) (d : Nat) :
    ((taskMigrate s t src dst).rqs d).curr = (s.rqs d).curr ∧
      ((taskMigrate s t src dst).rqs d).idle = (s.rqs d).idle := by
  simp only [taskMigrate, hon, if_true]
  constructor
  · rw [(countMigration_rq _ src d).2.1, (countMigration_rq _ dst d).2.1, (enqueueTask_rq _ dst t d).2.1]
    exact (dequeueTask_curr s src t d).1
  · rw [(countMigration_rq _ src d).2.2, (countMigration_rq _ dst d).2.2, (enqueueTask_rq _ dst t d).2.2]
    exact (dequeueTask_curr s src t d).2

/-- **One move**: the task leaves its list on the source and is appended to one on the destination. -/
theorem Lists.taskMigrate (hl : Lists s q) (hsrc : RqInv s q src) (hdst : RqInv s q dst) {p : Fin 140}
    (ht : t ∈ q ⟨src, (s.rqs src).active, p⟩) :
    ∃ q1 j, q1 = Function.update q ⟨src, (s.rqs src).active, p⟩ ((q ⟨src, (s.rqs src).active, p⟩).erase t) ∧
      j.cpu = dst ∧ Lists (Sched.taskMigrate s t src dst) (Function.update q1 j (q1 j ++ [t])) ∧
      RqInv (Sched.taskMigrate s t src dst) (Function.update q1 j (q1 j ++ [t])) src ∧
      RqInv (Sched.taskMigrate s t src dst) (Function.update q1 j (q1 j ++ [t])) dst := by
  have hon : (s.tasks t).onRq = true := (hl.onRq t).2 ⟨_, ht⟩
  have hp : (s.tasks t).prio = (p : Nat) := hsrc.acct.prio ((s.rqs src).active, p) t ht
  have hl1 := hl.dequeueTask ht src
  have hs1 := hsrc.dequeueTask ht
  have hd1 := hdst.dequeueTask ht
  have ht1 : (Sched.dequeueTask s src t).tasks t = { s.tasks t with onRq := false } := by
    rw [dequeueTask_tasks, if_pos rfl]
  have hl2 : Lists ((Sched.dequeueTask s src t).setTask t { (Sched.dequeueTask s src t).tasks t with cpu := dst }) _ :=
    hl1.setTask rfl
  have hp2 : ((State.setTask (Sched.dequeueTask s src t) t
      { (Sched.dequeueTask s src t).tasks t with cpu := dst }).tasks t).prio = (p : Nat) := by
    simp only [State.setTask, Function.update_self, ht1, hp]
  have hoff2 : ((State.setTask (Sched.dequeueTask s src t) t
      { (Sched.dequeueTask s src t).tasks t with cpu := dst }).tasks t).onRq = false := by
    simp only [State.setTask, Function.update_self, ht1]
  refine ⟨_, ⟨dst, ((Sched.dequeueTask s src t).rqs dst).active, p⟩, rfl, rfl, ?_, ?_, ?_⟩
  all_goals simp only [Sched.taskMigrate, hon, if_true, hd1.cpu]
  · exact ((hl2.enqueueTask hoff2 dst hp2).setRq dst _).setRq src _
  · exact (((hs1.setCpu t dst).enqueueTask dst hp2).countMigration dst).countMigration src
  · exact (((hd1.setCpu t dst).enqueueTask dst hp2).countMigration dst).countMigration src

theorem migratable_iff : migratable s src dst t = true ↔ (s.rqs src).curr ≠ some t ∧ (s.rqs src).idle ≠ some t ∧
    (s.tasks t).state = taskRunning ∧ Permitted (s.tasks t) dst := by
  simp only [migratable, Permitted, Bool.and_eq_true, Bool.or_eq_true, decide_eq_true_eq, ne_eq, eq_comm (a := some t),
    and_assoc]

theorem Pulled.migrate (hl : Lists s q) (hsrc : RqInv s q src) (hdst : RqInv s q dst) (hne : src ≠ dst) {p : Fin 140}
    (ht : t ∈ q ⟨src, (s.rqs src).active, p⟩) (hm : migratable s src dst t = true) :
    ∃ q', Pulled s (taskMigrate s t src dst) q q' src dst [t] := by
  have hon : (s.tasks t).onRq = true := (hl.onRq t).2 ⟨_, ht⟩
  obtain ⟨hcurr, hidle, hrun, hperm⟩ := migratable_iff.1 hm
  obtain ⟨q1, j, hq1, hj, hl', hsrc', hdst'⟩ := hl.taskMigrate hsrc hdst ht
  have hcpu : ((dequeueTask s src t).rqs dst).cpu = dst := (hdst.dequeueTask ht).cpu
  have htaken : queued (Function.update q1 j (q1 j ++ [t])) src + {t} = queued q src := by
    rw [queued_update_of_ne (fun h => hne (h.trans hj)), hq1]
    exact queued_erase ht
  have hgiven : queued (Function.update q1 j (q1 j ++ [t])) dst = queued q dst + {t} := by
    rw [← hj, queued_append, hj, hq1, queued_update_of_ne (fun h => hne h.symm)]
  have hdest : ∃ i, i.cpu = dst ∧ t ∈ Function.update q1 j (q1 j ++ [t]) i := ⟨j, hj, by simp⟩
  have hmoved : (taskMigrate s t src dst).tasks t = { s.tasks t with cpu := dst } := by
    rw [taskMigrate_tasks hon, if_pos rfl, hcpu]
  refine ⟨_, List.nodup_singleton t, List.forall_mem_singleton.2 ⟨_, rfl, ht⟩, List.forall_mem_singleton.2 hrun,
    List.forall_mem_singleton.2 hcurr, List.forall_mem_singleton.2 hidle, List.forall_mem_singleton.2 hperm,
    List.forall_mem_singleton.2 hdest, List.forall_mem_singleton.2 hmoved, fun u hu => ?_, htaken,
    hgiven, taskMigrate_rq hon src, hl', hsrc', hdst'⟩
  have hut : u ≠ t := fun h => hu (List.mem_singleton.2 h)
  refine ⟨by rw [taskMigrate_tasks hon, if_neg hut], fun i => ?_⟩
  rw [mem_append_of_ne hut, hq1, mem_erase_of_ne hut]

/-! ## The pull loop -/

theorem Pulled.refl (hl : Lists s q) (hsrc : RqInv s q src) (hdst : RqInv s q dst) : Pulled s s q q src dst [] where
  nodup := List.nodup_nil
  source _ h := by cases h
  running _ h := by cases h
  notCurr _ h := by cases h
  notIdle _ h := by cases h
  permitted _ h := by cases h
  dest _ h := by cases h
  cpu _ h := by cases h
  rest _ _ := ⟨rfl, fun _ => Iff.rfl⟩
  taken := add_zero _
  given := (add_zero _).symm
  curr := ⟨rfl, rfl⟩
  lists := hl
  srcInv := hsrc
  dstInv := hdst

/-- **Moves compose**: what is on the destination after the first ones is not what the others take from the source. -/
theorem Pulled.trans {l l' : List Nat} (h : Pulled s s' q q' src dst l) (h' : Pulled s' s'' q' q'' src dst l')
    (hne : src ≠ dst) : Pulled s s'' q q'' src dst (l ++ l') := by
  have hapart : ∀ t ∈ l, t ∉ l' := by
    intro t ht ht'
    obtain ⟨i, hi, hti⟩ := h.dest t ht
    obtain ⟨j, hj, htj⟩ := h'.source t ht'
    rw [h.lists.unique htj hti] at hj
    exact hne (hj.symm.trans hi)
  have hfrom : ∀ t ∈ l', s'.tasks t = s.tasks t ∧ ∀ i, t ∈ q' i ↔ t ∈ q i :=
    fun t ht' => h.rest t fun ht => hapart t ht ht'
  have hback : ∀ t ∈ l, s''.tasks t = s'.tasks t ∧ ∀ i, t ∈ q'' i ↔ t ∈ q' i := fun t ht => h'.rest t (hapart t ht)
  constructor
  · exact List.nodup_append'.2 ⟨h.nodup, h'.nodup, hapart⟩
  · refine List.forall_mem_append.2 ⟨h.source, fun t ht => ?_⟩
    obtain ⟨i, hi, hti⟩ := h'.source t ht
    exact ⟨i, hi, ((hfrom t ht).2 i).1 hti⟩
  · refine List.forall_mem_append.2 ⟨h.running, fun t ht => ?_⟩
    rw [← (hfrom t ht).1]
    exact h'.running t ht
  · refine List.forall_mem_append.2 ⟨h.notCurr, fun t ht => ?_⟩
    rw [← h.curr.1]
    exact h'.notCurr t ht
  · refine List.forall_mem_append.2 ⟨h.notIdle, fun t ht => ?_⟩
    rw [← h.curr.2]
    exact h'.notIdle t ht
  · refine List.forall_mem_append.2 ⟨h.permitted, fun t ht => ?_⟩
    rw [← (hfrom t ht).1]
    exact h'.permitted t ht
  · refine List.forall_mem_append.2 ⟨fun t ht => ?_, h'.dest⟩
    obtain ⟨i, hi, hti⟩ := h.dest t ht
    exact ⟨i, hi, ((hback t ht).2 i).2 hti⟩
  · refine List.forall_mem_append.2 ⟨fun t ht => ?_, fun t ht => ?_⟩
    · rw [(hback t ht).1]
      exact h.cpu t ht
    · rw [h'.cpu t ht, (hfrom t ht).1]
  · intro t ht
    rw [List.mem_append, not_or] at ht
    obtain ⟨h1, h2⟩ := h.rest t ht.1
    obtain ⟨h3, h4⟩ := h'.rest t ht.2
    exact ⟨h3.trans h1, fun i => (h4 i).trans (h2 i)⟩
  · rw [← Multiset.coe_add, add_comm (l : Multiset Nat), ← add_assoc, h'.taken, h.taken]
  · rw [h'.given, h.given, ← Multiset.coe_add, add_assoc]
  · exact ⟨h'.curr.1.trans h.curr.1, h'.curr.2.trans h.curr.2⟩
  · exact h'.lists
  · exact h'.srcInv
  · exact h'.dstInv

/-- **The search ends**: with more steps than a list has tasks its result does not depend on them. -/
theorem Lists.findMigratable_total (hl : Lists s q) (src dst : Nat) : ∀ n ≤ 140, ∃ r, ∀ fuel,
    (∀ p, (q ⟨src, (s.rqs src).active, p⟩).length < fuel) → Sched.findMigratable s src dst fuel n = some r
  | 0, _ => ⟨none, fun _ _ => rfl⟩
  | n + 1, hn => by
    obtain ⟨r, hr⟩ := hl.findMigratable_total src dst n (Nat.le_of_succ_le hn)
    simp only [Sched.findMigratable]
    split
    · exact ⟨r, hr⟩
    · have hwalk : ∀ fuel, (∀ p, (q ⟨src, (s.rqs src).active, p⟩).length < fuel) →
          s.links.entries (.queue src (s.rqs src).active n) fuel =
            some ((q ⟨src, (s.rqs src).active, ⟨n, hn⟩⟩).map Node.task) := by
        intro fuel hfuel
        refine (hl.rings.ring ⟨src, (s.rqs src).active, ⟨n, hn⟩⟩).entries ?_
        rw [List.length_map]
        exact hfuel _
      cases hfind : (q ⟨src, (s.rqs src).active, ⟨n, hn⟩⟩).find? (migratable s src dst) with
      | none =>
        refine ⟨r, fun fuel hfuel => ?_⟩
        simp only [hwalk fuel hfuel, filterMap_task, hfind]
        exact hr fuel hfuel
      | some t =>
        refine ⟨some t, fun fuel hfuel => ?_⟩
        simp only [hwalk fuel hfuel, filterMap_task, hfind]

/-- **The pull loop ends** and is a number of moves, one a turn at most. -/
theorem Pulled.pullTasks (hne : src ≠ dst) {limit : Nat} (n : Nat) (hl : Lists s q) (hsrc : RqInv s q src)
    (hdst : RqInv s q dst) (hlimit : Multiset.card (queued q src) < limit) :
    ∃ s' q' moved, (∀ fuel, limit ≤ fuel → Sched.pullTasks src dst fuel n s = some s') ∧ moved.length ≤ n ∧
      Pulled s s' q q' src dst moved := by
  induction n generalizing s q with
  | zero => exact ⟨s, q, [], fun _ _ => rfl, Nat.le_refl 0, .refl hl hsrc hdst⟩
  | succ n ih =>
    simp only [Sched.pullTasks]
    split
    · exact ⟨s, q, [], fun _ _ => rfl, Nat.zero_le _, .refl hl hsrc hdst⟩
    · split
      · exact ⟨s, q, [], fun _ _ => rfl, Nat.zero_le _, .refl hl hsrc hdst⟩
      · obtain ⟨r, hr⟩ := hl.findMigratable_total src dst 140 (Nat.le_refl 140)
        have hfuel : ∀ fuel, limit ≤ fuel → Sched.findMigratable s src dst fuel 140 = some r := by
          intro fuel hf
          refine hr fuel fun p => ?_
          have hlen := length_le_queued q src (s.rqs src).active p
          omega
        cases r with
        | none =>
          refine ⟨s, q, [], fun fuel hf => ?_, Nat.zero_le _, .refl hl hsrc hdst⟩
          rw [hfuel fuel hf]
        | some t =>
          obtain ⟨⟨p, ht⟩, hmig⟩ := hl.findMigratable (Nat.le_refl 140) (hfuel limit (Nat.le_refl limit))
          obtain ⟨q1, h1⟩ := Pulled.migrate hl hsrc hdst hne ht hmig
          have hless : Multiset.card (queued q1 src) < limit := by
            have hcard := congrArg Multiset.card h1.taken
            rw [Multiset.card_add] at hcard
            omega
          obtain ⟨s', q', moved, hrun, hlen, h'⟩ := ih h1.lists h1.srcInv h1.dstInv hless
          refine ⟨s', q', [t] ++ moved, fun fuel hf => ?_, ?_, h1.trans h' hne⟩
          · rw [hfuel fuel hf]
            exact hrun fuel hf
          · rw [List.length_append, List.length_singleton]
            omega

/-! ## The totals -/

theorem Pulled.conserved {l : List Nat} (h : Pulled s s' q q' src dst l) :
    queued q' src + queued q' dst = queued q src + queued q dst := by
  rw [h.given, add_comm (queued q dst), ← add_assoc, h.taken]

/-- A move changes no task's weight. -/
theorem Pulled.weight {l : List Nat} (h : Pulled s s' q q' src dst l) (t : Nat) :
    Sched.weight (s'.tasks t) = Sched.weight (s.tasks t) := by
  unfold Sched.weight
  by_cases ht : t ∈ l
  · rw [h.cpu t ht]
  · rw [(h.rest t ht).1]

/-- Two counters that wrapped, added. -/
theorem add64_totals {a b a' b' : Nat} (h : a' + b' = a + b) :
    add64 (a' % word64) (b' % word64) = add64 (a % word64) (b % word64) ∧
      (a + b < word64 → a' % word64 + b' % word64 = a % word64 + b % word64) := by
  constructor
  · unfold add64
    rw [← Nat.add_mod, ← Nat.add_mod, h]
  · intro hlt
    rw [Nat.mod_eq_of_lt (by omega), Nat.mod_eq_of_lt (by omega), Nat.mod_eq_of_lt (by omega),
      Nat.mod_eq_of_lt (by omega), h]

/-- **The totals follow from the books**: the pair holds the same tasks, of the same weights. -/
theorem Pulled.balanced {l : List Nat} (h : Pulled s s' q q' src dst l) (hsrc : RqInv s q src) (hdst : RqInv s q dst)
    (hl : l.length ≤ 4) : Balanced s s' q q' src dst l := by
  have hcard := congrArg Multiset.card h.conserved
  have hsum := congrArg (fun m => (m.map fun t => Sched.weight (s.tasks t)).sum) h.conserved
  have hw : (fun t => Sched.weight (s'.tasks t)) = fun t => Sched.weight (s.tasks t) := funext h.weight
  simp only [Multiset.card_add, Multiset.map_add, Multiset.sum_add] at hcard hsum
  refine ⟨h, hl, h.conserved, ?_, ?_, ?_, ?_⟩
  · rw [h.srcInv.nrRunning, h.dstInv.nrRunning, hsrc.nrRunning, hdst.nrRunning]
    exact (add64_totals hcard).1
  · rw [h.srcInv.load, h.dstInv.load, hsrc.load, hdst.load, hw]
    exact (add64_totals hsum).1
  · rw [h.srcInv.nrRunning, h.dstInv.nrRunning, hsrc.nrRunning, hdst.nrRunning, Multiset.card_add]
    exact (add64_totals hcard).2
  · rw [h.srcInv.load, h.dstInv.load, hsrc.load, hdst.load, hw, Multiset.map_add, Multiset.sum_add]
    exact (add64_totals hsum).2

/-- **One pass of `sched_load_balance` ends, and moves work without losing it**: it leaves everything as it was, or pulls
at most four tasks from the busiest run queue. -/
theorem schedLoadBalance_conserves {this : Nat} (hl : Lists s q) (hthis : RqInv s q this)
    (hsrc : ∀ src, findBusiestQueue s this = some src → RqInv s q src) (lbNext : Nat → Nat) (jiffies : Nat) :
    ∃ limit s' next, (∀ fuel, limit ≤ fuel → schedLoadBalance s lbNext jiffies this fuel = some (s', next)) ∧
      (s' = s ∨ ∃ src q' moved, src ≠ this ∧ Balanced s s' q q' src this moved) := by
  unfold schedLoadBalance
  by_cases hearly : tooEarly jiffies (lbNext this) = true
  · simp only [if_pos hearly]
    exact ⟨0, s, lbNext, fun _ _ => rfl, .inl rfl⟩
  · simp only [if_neg hearly]
    cases hbusy : findBusiestQueue s this with
    | none => exact ⟨0, s, _, fun _ _ => rfl, .inl rfl⟩
    | some src =>
      have hne := findBusiestQueue_ne hbusy
      have hinv := hsrc src hbusy
      obtain ⟨s', q', moved, hrun, hlen, h⟩ := Pulled.pullTasks hne lbPullMax hl hinv hthis (Nat.lt_succ_self _)
      refine ⟨Multiset.card (queued q src) + 1, s',
        Function.update lbNext this (add64 (add64 jiffies lbIntervalTicks) (this * 7)), fun fuel hf => ?_,
        .inr ⟨src, q', moved, hne, h.balanced hinv hthis hlen⟩⟩
      simp only [hrun fuel hf]
      rfl

/-- Three runnable tasks are queued on CPU 0. -/
def arrivals : List Op :=
  [.touch 1 taskRunning 100, .touch 2 taskRunning 100, .touch 3 taskRunning 100, .enqueue 0 1, .enqueue 0 2, .enqueue 0 3]

/-- CPU 0, now online, has three tasks and CPU 1 none. -/
def uneven : State :=
  (arrivals.foldl step bootState).setRq 0 { (arrivals.foldl step bootState).rqs 0 with idle := some 9 }

theorem uneven_inv : ∃ q, Lists uneven q ∧ RqInv uneven q 0 ∧ RqInv uneven q 1 := by
  have hrun : machine.RunOk StepOk bootState arrivals (arrivals.foldl step bootState) := by
    refine runOk_cons trivial (runOk_cons trivial (runOk_cons trivial ?_))
    refine runOk_cons ⟨by decide +kernel, by decide +kernel⟩ (runOk_cons ⟨by decide +kernel, by decide +kernel⟩ ?_)
    exact runOk_cons ⟨by decide +kernel, by decide +kernel⟩ rfl
  obtain ⟨q, hb⟩ := books_of_run _ _ _ bootState_boot hrun
  have h0 : RqInv (arrivals.foldl step bootState) q 0 := ⟨hb.acct 0, by decide +kernel⟩
  have h1 : RqInv (arrivals.foldl step bootState) q 1 := ⟨hb.acct 1, by decide +kernel⟩
  exact ⟨q, hb.lists.setRq 0 _, h0.setRq 0 _ _, h1.setRq 0 _ _⟩

/-- CPU 1 pulls a task from CPU 0. -/
theorem schedLoadBalance_conserves_uneven :
    (schedLoadBalance uneven (fun _ => 0) 5 1 4).map (fun r => ((r.1.tasks 1).cpu, (r.1.tasks 2).cpu, r.2 1)) =
        some (1, 0, 212) ∧
      ∃ limit s' next, (∀ fuel, limit ≤ fuel → schedLoadBalance uneven (fun _ => 0) 5 1 fuel = some (s', next)) ∧
        (s' = uneven ∨ ∃ q src q' moved, src ≠ 1 ∧ Balanced uneven s' q q' src 1 moved) := by
  obtain ⟨q, hl, h0, h1⟩ := uneven_inv
  have hbusy : findBusiestQueue uneven 1 = some 0 := by decide +kernel
  have hsrc : ∀ src, findBusiestQueue uneven 1 = some src → RqInv uneven q src := by
    intro src h
    rw [hbusy] at h
    cases h
    exact h0
  obtain ⟨limit, s', next, hrun, h⟩ := schedLoadBalance_conserves hl h1 hsrc (fun _ => 0) 5
  refine ⟨by decide +kernel, limit, s', next, hrun, h.imp_right ?_⟩
  rintro ⟨src, q', moved, hne, hb⟩
  exact ⟨q, src, q', moved, hne, hb⟩

end Sched
end Pico
