import Mathlib.Data.List.Perm.Subperm
import Mathlib.Logic.Function.Basic
import Mathlib.Logic.Function.Iterate
import Picomimi.Lib.Run
/-!
# Pid — the PIDs of `kernel/process.c`, and where `reap_zombie` returns them

`task_fork` takes a PID from `process.c`'s bitmap.  `reap_zombie` gives it back through `pid_free` of `fs/vfs_ops.c`,
which has a bitmap of its own: the PID stays taken.  PIDs in use are distinct in every run; the rest of their life cycle
holds exactly while no task is reaped (`lifecycle_iff_of_run`), and forks run out however few tasks there are
(`fork_runs_out`).
-/
namespace Pico
namespace Pid

open Lib

def pidMax : Nat := 32768
def reservedPids : Nat := 300

/-- `MAX_PID` of `vfs_ops.c`. -/
def maxPid : Nat := 65536

structure Task where
  pid : Nat
  zombie : Bool
deriving DecidableEq

structure State where
  pidBitmap : Nat → Bool      -- of `process.c`; set: taken
  lastPid : Nat
  freeBitmap : Nat → Bool     -- of `vfs_ops.c`; set: free
  tasks : List Task           -- created and not reaped
  reaped : List Nat           -- the PIDs of the tasks reaped so far

/-- `pid++; if (pid >= PID_MAX) pid = RESERVED_PIDS`. -/
def nextPid (pid : Nat) : Nat := if pidMax ≤ pid + 1 then reservedPids else pid + 1

/-- The loop of `alloc_pid`. -/
def allocFrom (bitmap : Nat → Bool) (start : Nat) : Nat → Nat → Option Nat
  | 0, _ => none
  | fuel + 1, pid =>
    if !bitmap pid then some pid
    else if nextPid pid = start then none
    else allocFrom bitmap start fuel (nextPid pid)

/-- `alloc_pid`.  `PID_MAX` turns see every PID from `RESERVED_PIDS` on; if all are taken and `start` lies below, the
source's loop would go on for ever. -/
def allocPid (s : State) : Option Nat × State :=
  match allocFrom s.pidBitmap (nextPid s.lastPid) pidMax (nextPid s.lastPid) with
  | none => (none, s)
  | some pid => (some pid, { s with pidBitmap := Function.update s.pidBitmap pid true, lastPid := pid })

/-- `free_pid`. -/
def freePid (s : State) (pid : Nat) : State :=
  if pid < reservedPids ∨ pidMax ≤ pid then s else { s with pidBitmap := Function.update s.pidBitmap pid false }

/-- `pid_free`, of `vfs_ops.c`. -/
def pidFree (s : State) (pid : Nat) : State :=
  if pid = 0 ∨ maxPid ≤ pid then s else { s with freeBitmap := Function.update s.freeBitmap pid true }

inductive Label where
  | fork (mem mm : Bool)      -- `kmalloc` of the task succeeds, and `mm_copy`
  | exit (i : Nat)
  | reap (i : Nat)

/-- `task_fork`. -/
def taskFork (s : State) (mem mm : Bool) : State :=
  if !mem then s
  else
    match allocPid s with
    | (none, s) => s
    | (some pid, s) => if !mm then freePid s pid else { s with tasks := s.tasks ++ [⟨pid, false⟩] }

/-- The PIDs `reap_zombie` moves. -/
def reapZombie (s : State) (i : Nat) (t : Task) : State :=
  let s := pidFree s t.pid
  { s with tasks := s.tasks.eraseIdx i, reaped := t.pid :: s.reaped }

def pidStep (s : State) : Label → Option State
  | .fork mem mm => some (taskFork s mem mm)
  | .exit i =>
    match s.tasks[i]? with
    | none => none
    | some t => if t.zombie then none else some { s with tasks := s.tasks.set i { t with zombie := true } }
  | .reap i =>
    match s.tasks[i]? with
    | none => none
    | some t => if t.zombie then some (reapZombie s i t) else none

/-- After `process_init`, `create_init_task` and `pid_init`. -/
def boot : State where
  pidBitmap pid := decide (pid < 2)
  lastPid := 0
  freeBitmap pid := decide (0 < pid ∧ pid < maxPid)
  tasks := [⟨0, false⟩, ⟨1, false⟩]
  reaped := []

def pidMachine : Machine State Label where
  init s := s = boot
  step := pidStep

/-- The PIDs `alloc_pid` goes round. -/
def pidSpace : Nat := pidMax - reservedPids

def State.pids (s : State) : List Nat := s.tasks.map Task.pid

/-- **The life cycle of the PIDs**: distinct, usable again after the reaping, never lacking while tasks are fewer than
PIDs. -/
structure Lifecycle (s : State) : Prop where
  distinct : s.pids.Nodup
  reusable : ∀ pid ∈ s.reaped, s.pidBitmap pid = false ∨ pid ∈ s.pids
  enough : s.tasks.length < pidSpace → (allocPid s).1.isSome

/-! ## The search -/

variable {bitmap : Nat → Bool} {start pid fuel : Nat}

theorem nextPid_bounds (pid : Nat) : 0 < nextPid pid ∧ nextPid pid < pidMax := by
  unfold nextPid pidMax reservedPids
  split <;> omega

theorem allocFrom_spec : ∀ {fuel pid q : Nat}, pid < pidMax → allocFrom bitmap start fuel pid = some q →
    bitmap q = false ∧ q < pidMax
  | fuel + 1, pid, q, hpid, h => by
    unfold allocFrom at h
    cases hb : bitmap pid with
    | false =>
      rw [hb] at h
      cases h
      exact ⟨hb, hpid⟩
    | true =>
      rw [hb, if_neg (by decide)] at h
      by_cases hn : nextPid pid = start
      · rw [if_pos hn] at h
        cases h
      · rw [if_neg hn] at h
        exact allocFrom_spec (nextPid_bounds pid).2 h

/-- **A search that finds nothing has seen every PID it came by**, up to its return to the start. -/
theorem allocFrom_none : ∀ {fuel pid : Nat}, allocFrom bitmap start fuel pid = none → ∀ j, j < fuel →
    (∀ i, i < j → nextPid (nextPid^[i] pid) ≠ start) → bitmap (nextPid^[j] pid) = true
  | fuel + 1, pid, h, j, hj, hstart => by
    unfold allocFrom at h
    cases hb : bitmap pid with
    | false =>
      rw [hb] at h
      cases h
    | true =>
      cases j with
      | zero => exact hb
      | succ j =>
        have hne : nextPid pid ≠ start := hstart 0 (Nat.succ_pos j)
        rw [hb, if_neg (by decide), if_neg hne] at h
        exact allocFrom_none h j (Nat.lt_of_succ_lt_succ hj) fun i hi => hstart (i + 1) (Nat.succ_lt_succ hi)

theorem allocFrom_of_full (h : ∀ pid < pidMax, bitmap pid = true) : ∀ (fuel pid : Nat), pid < pidMax →
    allocFrom bitmap start fuel pid = none
  | 0, _, _ => rfl
  | fuel + 1, pid, hpid => by
    unfold allocFrom
    rw [h pid hpid, if_neg (by decide)]
    split
    · rfl
    · exact allocFrom_of_full h fuel _ (nextPid_bounds pid).2

theorem nextPid_iterate (i : Nat) : ∀ {pid : Nat}, pid + i < pidMax → nextPid^[i] pid = pid + i := by
  induction i with
  | zero => exact fun _ => rfl
  | succ i ih =>
    intro pid h
    rw [Function.iterate_succ_apply', ih (by omega), nextPid, if_neg (by omega)]
    rfl

/-- Behind the last PID the search goes on from `RESERVED_PIDS`. -/
theorem nextPid_iterate_wrap {i : Nat} (hpid : pid < pidMax) (hi : reservedPids + i < pidMax) :
    nextPid^[i + (pidMax - pid)] pid = reservedPids + i := by
  have hlast : nextPid^[pidMax - pid] pid = reservedPids := by
    obtain ⟨n, hn⟩ : ∃ n, pidMax - pid = n + 1 := ⟨pidMax - pid - 1, by omega⟩
    rw [hn, Function.iterate_succ_apply', nextPid_iterate n (by omega), nextPid, if_pos (by omega)]
  rw [Function.iterate_add_apply, hlast, nextPid_iterate i hi]

/-- **`alloc_pid` fails only when every PID from `RESERVED_PIDS` on is taken.** -/
theorem allocFrom_none_full (h0 : 0 < start) (h1 : start < pidMax) (h : allocFrom bitmap start pidMax start = none)
    (hlo : reservedPids ≤ pid) (hhi : pid < pidMax) : bitmap pid = true := by
  have hne : ∀ {i}, i < pidMax - start → nextPid (nextPid^[i] start) ≠ start ∨ start = reservedPids := by
    intro i hi
    rw [nextPid_iterate i (by omega)]
    unfold nextPid
    split <;> omega
  by_cases hge : start ≤ pid
  · -- seen on the way up
    have hseen := allocFrom_none h (pid - start) (by omega) (fun i hi => ?_)
    · rwa [nextPid_iterate _ (by omega), Nat.add_sub_cancel' hge] at hseen
    · rw [nextPid_iterate i (by omega), nextPid, if_neg (by omega)]
      omega
  · -- seen after the wrap
    have hseen := allocFrom_none h (pid - reservedPids + (pidMax - start)) (by omega) (fun i hi => ?_)
    · rwa [nextPid_iterate_wrap h1 (by omega), Nat.add_sub_cancel' hlo] at hseen
    · by_cases hi' : i < pidMax - start
      · exact (hne hi').resolve_right (by omega)
      · obtain ⟨k, rfl⟩ : ∃ k, i = k + (pidMax - start) := ⟨i - (pidMax - start), by omega⟩
        rw [nextPid_iterate_wrap h1 (by omega), nextPid, if_neg (by omega)]
        omega

/-! ## What a run keeps -/

/-- The PIDs of the tasks are distinct and taken. -/
structure Taken (s : State) : Prop where
  distinct : s.pids.Nodup
  taken : ∀ pid ∈ s.pids, s.pidBitmap pid = true

/-- Before the first reaping: from `RESERVED_PIDS` on, only the tasks' PIDs are taken. -/
structure Fresh (s : State) : Prop extends Taken s where
  only : ∀ pid, reservedPids ≤ pid → s.pidBitmap pid = true → pid ∈ s.pids
  none_reaped : s.reaped = []

variable {s s' : State}

theorem allocPid_spec (h : allocPid s = (some pid, s')) : s.pidBitmap pid = false ∧ pid < pidMax ∧
    s' = { s with pidBitmap := Function.update s.pidBitmap pid true, lastPid := pid } := by
  unfold allocPid at h
  cases hf : allocFrom s.pidBitmap (nextPid s.lastPid) pidMax (nextPid s.lastPid) with
  | none =>
    rw [hf] at h
    cases h
  | some q =>
    rw [hf] at h
    cases h
    obtain ⟨hfree, hlt⟩ := allocFrom_spec (nextPid_bounds s.lastPid).2 hf
    exact ⟨hfree, hlt, rfl⟩

theorem allocPid_none (h : allocPid s = (none, s')) : s' = s ∧
    ∀ pid, reservedPids ≤ pid → pid < pidMax → s.pidBitmap pid = true := by
  unfold allocPid at h
  cases hf : allocFrom s.pidBitmap (nextPid s.lastPid) pidMax (nextPid s.lastPid) with
  | none =>
    rw [hf] at h
    cases h
    have hb := nextPid_bounds s.lastPid
    exact ⟨rfl, fun pid hlo hhi => allocFrom_none_full hb.1 hb.2 hf hlo hhi⟩
  | some q =>
    rw [hf] at h
    cases h

/-- **What a fork can do**: nothing; leak a reserved PID; or add a task with a PID that was not taken. -/
theorem taskFork_cases (s : State) (mem mm : Bool) :
    taskFork s mem mm = s ∨
    (∃ pid, s.pidBitmap pid = false ∧ ∃ b, taskFork s mem mm =
      { s with pidBitmap := Function.update s.pidBitmap pid b, lastPid := pid } ∧ (b = true → pid < reservedPids)) ∨
    ∃ pid, s.pidBitmap pid = false ∧ taskFork s mem mm =
      { s with pidBitmap := Function.update s.pidBitmap pid true, lastPid := pid, tasks := s.tasks ++ [⟨pid, false⟩] } := by
  unfold taskFork
  cases mem with
  | false => exact .inl rfl
  | true =>
    rw [if_neg (by decide)]
    rcases ha : allocPid s with ⟨_ | pid, s₁⟩
    · exact .inl (allocPid_none ha).1
    · obtain ⟨hfree, hlt, rfl⟩ := allocPid_spec ha
      cases mm with
      | true => exact .inr (.inr ⟨pid, hfree, rfl⟩)
      | false =>
        refine .inr (.inl ⟨pid, hfree, ?_⟩)
        simp only [Bool.not_false, if_true, freePid]
        by_cases hr : pid < reservedPids ∨ pidMax ≤ pid
        · rw [if_pos hr]
          exact ⟨true, rfl, fun _ => hr.resolve_right (Nat.not_le_of_lt hlt)⟩
        · rw [if_neg hr]
          exact ⟨false, by rw [Function.update_idem], fun hc => by cases hc⟩

theorem Taken.withBit (h : Taken s) (hfree : s.pidBitmap pid = false) (b : Bool) (last : Nat) :
    Taken { s with pidBitmap := Function.update s.pidBitmap pid b, lastPid := last } := by
  refine ⟨h.distinct, fun q hq => ?_⟩
  have hne : q ≠ pid := by
    rintro rfl
    exact Bool.false_ne_true (hfree.symm.trans (h.taken q hq))
  simp only [Function.update_of_ne hne]
  exact h.taken q hq

theorem Taken.add (h : Taken s) (hfree : s.pidBitmap pid = false) : Taken { s with
    pidBitmap := Function.update s.pidBitmap pid true, lastPid := pid, tasks := s.tasks ++ [⟨pid, false⟩] } := by
  have hnew : pid ∉ s.pids := fun hmem => Bool.false_ne_true (hfree.symm.trans (h.taken pid hmem))
  refine ⟨?_, fun q hq => ?_⟩
  · simp only [State.pids, List.map_append, List.map_cons, List.map_nil]
    exact List.nodup_append.2 ⟨h.distinct, List.pairwise_singleton _ pid, fun a ha b hb hab =>
      hnew (by rw [List.mem_singleton.1 hb] at hab; exact hab ▸ ha)⟩
  · simp only [State.pids, List.map_append, List.map_cons, List.map_nil, List.mem_append, List.mem_singleton] at hq
    rcases hq with hq | rfl
    · have hne : q ≠ pid := fun hc => hnew (hc ▸ hq)
      simp only [Function.update_of_ne hne]
      exact h.taken q hq
    · simp only [Function.update_self]

theorem pids_set {i : Nat} {t : Task} (hi : s.tasks[i]? = some t) (z : Bool) :
    State.pids { s with tasks := s.tasks.set i { t with zombie := z } } = s.pids := by
  obtain ⟨hlt, rfl⟩ := List.getElem?_eq_some_iff.1 hi
  simp only [State.pids, List.map_set]
  apply List.ext_getElem?
  intro j
  by_cases hj : i = j
  · subst hj
    simp [hlt]
  · rw [List.getElem?_set_ne hj]

/-- **The PIDs of the tasks stay distinct and taken.** -/
theorem Taken.step (h : Taken s) {a : Label} (hs : pidStep s a = some s') : Taken s' := by
  cases a with
  | fork mem mm =>
    cases hs
    rcases taskFork_cases s mem mm with he | ⟨pid, hfree, b, he, -⟩ | ⟨pid, hfree, he⟩
    · rwa [he]
    · rw [he]
      exact h.withBit hfree b pid
    · rw [he]
      exact h.add hfree
  | exit i =>
    simp only [pidStep] at hs
    cases hi : s.tasks[i]? with
    | none =>
      rw [hi] at hs
      cases hs
    | some t =>
      rw [hi] at hs
      cases hz : t.zombie with
      | true => simp [hz] at hs
      | false =>
        simp only [hz, Bool.false_eq_true, if_false, Option.some.injEq] at hs
        subst hs
        have hp := pids_set hi true
        exact ⟨by rw [hp]; exact h.distinct, by rw [hp]; exact h.taken⟩
  | reap i =>
    simp only [pidStep] at hs
    cases hi : s.tasks[i]? with
    | none =>
      rw [hi] at hs
      cases hs
    | some t =>
      rw [hi] at hs
      cases hz : t.zombie with
      | false => simp [hz] at hs
      | true =>
        simp only [hz, if_true, Option.some.injEq, reapZombie, pidFree] at hs
        have hsub : ((s.tasks.eraseIdx i).map Task.pid).Sublist (s.tasks.map Task.pid) := (List.eraseIdx_sublist _ _).map _
        subst hs
        split <;> exact ⟨h.distinct.sublist hsub, fun q hq => h.taken q (hsub.subset hq)⟩

/-- While only the tasks' PIDs are taken, they do not run out. -/
theorem Fresh.enough (h : Fresh s) (hlt : s.tasks.length < pidSpace) : (allocPid s).1.isSome := by
  rcases ha : allocPid s with ⟨_ | pid, s₁⟩
  · have hfull := (allocPid_none ha).2
    have hsub : List.range' reservedPids pidSpace ⊆ s.pids := by
      intro q hq
      obtain ⟨i, hi, rfl⟩ := List.mem_range'.1 hq
      have hlt' : reservedPids + 1 * i < pidMax := by
        unfold pidSpace pidMax reservedPids at hi
        unfold pidMax reservedPids
        omega
      exact h.only _ (Nat.le_add_right _ _) (hfull _ (Nat.le_add_right _ _) hlt')
    have hlen := (List.subperm_of_subset List.nodup_range' hsub).length_le
    rw [List.length_range', State.pids, List.length_map] at hlen
    omega
  · rfl

theorem Fresh.lifecycle (h : Fresh s) : Lifecycle s :=
  ⟨h.distinct, by rw [h.none_reaped]; exact fun pid hp => absurd hp List.not_mem_nil, h.enough⟩

/-- No task is reaped. -/
def NoReap : Label → Prop
  | .reap _ => False
  | _ => True

instance : ∀ a, Decidable (NoReap a)
  | .reap _ => inferInstanceAs (Decidable False)
  | .fork _ _ | .exit _ => inferInstanceAs (Decidable True)

theorem Fresh.step (h : Fresh s) {a : Label} (hs : pidStep s a = some s') (hok : NoReap a) : Fresh s' := by
  have ht := h.toTaken.step hs
  cases a with
  | fork mem mm =>
    cases hs
    rcases taskFork_cases s mem mm with he | ⟨pid, hfree, b, he, hb⟩ | ⟨pid, hfree, he⟩
    · rwa [he]
    · rw [he] at ht ⊢
      refine ⟨ht, fun q hlo hq => ?_, h.none_reaped⟩
      by_cases hqp : q = pid
      · subst hqp
        simp only [Function.update_self] at hq
        exact absurd hlo (Nat.not_le_of_lt (hb hq))
      · simp only [Function.update_of_ne hqp] at hq
        exact h.only q hlo hq
    · rw [he] at ht ⊢
      refine ⟨ht, fun q hlo hq => ?_, h.none_reaped⟩
      simp only [State.pids, List.map_append, List.map_cons, List.map_nil, List.mem_append, List.mem_singleton]
      by_cases hqp : q = pid
      · exact .inr hqp
      · simp only [Function.update_of_ne hqp] at hq
        exact .inl (h.only q hlo hq)
  | exit i =>
    simp only [pidStep] at hs
    cases hi : s.tasks[i]? with
    | none =>
      rw [hi] at hs
      cases hs
    | some t =>
      rw [hi] at hs
      cases hz : t.zombie with
      | true => simp [hz] at hs
      | false =>
        simp only [hz, Bool.false_eq_true, if_false, Option.some.injEq] at hs
        subst hs
        exact ⟨ht, by rw [pids_set hi true]; exact h.only, h.none_reaped⟩
  | reap i => exact hok.elim

/-- A reaped task's PID stays taken, and no task has it. -/
theorem Taken.not_lifecycle (h : Taken s) {i : Nat} (hs : pidStep s (.reap i) = some s') : ¬Lifecycle s' := by
  intro hl
  simp only [pidStep] at hs
  cases hi : s.tasks[i]? with
  | none =>
    rw [hi] at hs
    cases hs
  | some t =>
    rw [hi] at hs
    cases hz : t.zombie with
    | false => simp [hz] at hs
    | true =>
      obtain ⟨hlt, ht⟩ := List.getElem?_eq_some_iff.1 hi
      have htaken : s.pidBitmap t.pid = true := h.taken _ (List.mem_map.2 ⟨t, ht ▸ List.getElem_mem hlt, rfl⟩)
      simp only [hz, if_true, Option.some.injEq] at hs
      have hbits : s'.pidBitmap = s.pidBitmap ∧ s'.pids = s.pids.eraseIdx i ∧ t.pid ∈ s'.reaped := by
        rw [← hs]
        unfold reapZombie pidFree State.pids
        split <;> exact ⟨rfl, (List.eraseIdx_map Task.pid _ i).symm, List.mem_cons_self⟩
      rcases hl.reusable t.pid hbits.2.2 with hfree | hmem
      · rw [hbits.1, htaken] at hfree
        cases hfree
      · -- the PIDs are distinct, so no other task has this one
        have hpid : s.pids[i]? = some t.pid := by rw [State.pids, List.getElem?_map, hi, Option.map_some]
        rw [hbits.2.1] at hmem
        obtain ⟨j, hj, hget⟩ := List.mem_eraseIdx_iff_getElem?.1 hmem
        obtain ⟨hlt', -⟩ := List.getElem?_eq_some_iff.1 hget
        exact hj ((List.getElem?_inj hlt' h.distinct).1 (hget.trans hpid.symm))

theorem Fresh.boot : Fresh boot := by
  refine ⟨⟨by decide, ?_⟩, fun pid hlo hp => ?_, rfl⟩
  · intro pid hp
    simp only [State.pids, Pid.boot, List.map_cons, List.map_nil, List.mem_cons, List.not_mem_nil, or_false] at hp
    rcases hp with rfl | rfl <;> rfl
  · have : pid < 2 := of_decide_eq_true hp
    unfold reservedPids at hlo
    omega

/-- **In every run the PIDs of the live and zombie tasks are distinct.** -/
theorem pids_nodup_of_run (l : List Label) (s : State) (h : pidMachine.run boot l = some s) : s.pids.Nodup :=
  (pidMachine.run_invariant (fun _ _ _ ht hs => Taken.step ht hs) l boot s Fresh.boot.toTaken h).distinct

/-- A task is forked, exits and is reaped, and another is forked. -/
theorem pids_nodup_of_run_reap : ∃ s, pidMachine.run boot [.fork true true, .exit 2, .reap 2, .fork true true] = some s ∧
    s.pids.Nodup := by
  have hrun : (pidMachine.run boot [.fork true true, .exit 2, .reap 2, .fork true true]).isSome = true := by decide +kernel
  obtain ⟨s, hs⟩ := Option.isSome_iff_exists.1 hrun
  exact ⟨s, hs, pids_nodup_of_run _ s hs⟩

/-- **The life cycle holds throughout a run exactly when the run reaps no task.** -/
theorem lifecycle_iff_of_run (s : State) (l : List Label) (s' : State) (h0 : pidMachine.init s)
    (h : pidMachine.run s l = some s') :
    pidMachine.Always Lifecycle s l ↔ pidMachine.RunOk (fun _ a => NoReap a) s l s' := by
  subst h0
  refine pidMachine.always_iff_runOk (fun _ => Fresh.lifecycle) (fun s a t hi ht hok => hi.step ht hok)
    (fun s a t hi ht hl => ?_) l Pid.boot s' Fresh.boot h
  cases a with
  | fork mem mm => exact trivial
  | exit i => exact trivial
  | reap i => exact absurd hl (hi.toTaken.not_lifecycle ht)

/-! ## Running out -/

/-- A task that is forked, exits and is reaped. -/
def cycle : List Label := [.fork true true, .exit 2, .reap 2]

def cycles : Nat → List Label
  | 0 => []
  | n + 1 => cycle ++ cycles n

/-- `m` cycles after the boot. -/
structure After (m : Nat) (s : State) : Prop where
  tasks : s.tasks = Pid.boot.tasks
  taken : ∀ pid, s.pidBitmap pid = decide (pid < m + 2)
  last : s.lastPid = if m = 0 then 0 else m + 1

theorem After.alloc {m : Nat} (h : After m s) (hm : m + 2 < pidMax) : allocPid s =
    (some (m + 2), { s with pidBitmap := Function.update s.pidBitmap (m + 2) true, lastPid := m + 2 }) := by
  have hsearch : allocFrom s.pidBitmap (nextPid s.lastPid) pidMax (nextPid s.lastPid) = some (m + 2) := by
    have hfree : s.pidBitmap (m + 2) = false := by
      rw [h.taken]
      exact decide_eq_false (Nat.lt_irrefl _)
    rw [h.last]
    cases m with
    | zero =>
      -- the search begins at 1, which is init's
      have hinit : s.pidBitmap 1 = true := by rw [h.taken]; rfl
      show (if (!s.pidBitmap 1) = true then _ else if nextPid 1 = 1 then _ else
        (if (!s.pidBitmap 2) = true then _ else _)) = _
      rw [hinit, hfree]
      rfl
    | succ m =>
      rw [if_neg (Nat.succ_ne_zero m), nextPid, if_neg (by omega)]
      show (if (!s.pidBitmap (m + 1 + 2)) = true then _ else _) = _
      rw [hfree]
      rfl
  unfold allocPid
  rw [hsearch]

/-- A third task, with the PID `pid`. -/
def State.third (s : State) (pid : Nat) (zombie : Bool) : State := { s with
  pidBitmap := Function.update s.pidBitmap pid true
  lastPid := pid
  tasks := Pid.boot.tasks ++ [⟨pid, zombie⟩] }

theorem State.third_fork {m : Nat} (h : After m s) (hm : m + 2 < pidMax) :
    pidStep s (.fork true true) = some (s.third (m + 2) false) := by
  simp only [pidStep, taskFork, Bool.not_true, Bool.false_eq_true, if_false, h.alloc hm, h.tasks]
  rfl

theorem State.third_exit (s : State) (pid : Nat) : pidStep (s.third pid false) (.exit 2) = some (s.third pid true) := rfl

theorem State.third_reap (s : State) (pid : Nat) :
    pidStep (s.third pid true) (.reap 2) = some (reapZombie (s.third pid true) 2 ⟨pid, true⟩) := rfl

theorem After.reaped {m : Nat} (h : After m s) : After (m + 1) (reapZombie (s.third (m + 2) true) 2 ⟨m + 2, true⟩) := by
  have hbits : (reapZombie (s.third (m + 2) true) 2 ⟨m + 2, true⟩).pidBitmap = Function.update s.pidBitmap (m + 2) true ∧
      (reapZombie (s.third (m + 2) true) 2 ⟨m + 2, true⟩).lastPid = m + 2 := by
    unfold reapZombie pidFree
    split <;> exact ⟨rfl, rfl⟩
  refine ⟨?_, fun pid => ?_, ?_⟩
  · unfold reapZombie pidFree
    split <;> rfl
  · rw [hbits.1]
    by_cases hp : pid = m + 2
    · subst hp
      rw [Function.update_self, eq_comm]
      exact decide_eq_true (by omega)
    · rw [Function.update_of_ne hp, h.taken, decide_eq_decide]
      omega
  · rw [hbits.2, if_neg (Nat.succ_ne_zero m)]

/-- **`n` cycles take `n` PIDs for good**, with three tasks at most. -/
theorem After.cycles : ∀ (n : Nat) {m : Nat} {s : State}, After m s → m + n + 2 ≤ pidMax →
    ∃ s', pidMachine.run s (Pid.cycles n) = some s' ∧ After (m + n) s' ∧
      pidMachine.Always (fun s => s.tasks.length ≤ 3) s (Pid.cycles n)
  | 0, m, s, h, _ => ⟨s, rfl, h, by show s.tasks.length ≤ 3; rw [h.tasks]; decide⟩
  | n + 1, m, s, h, hle => by
    have hm : m + 2 < pidMax := by omega
    obtain ⟨s', hrun, hafter, hall⟩ := After.cycles n h.reaped (by omega)
    have hfork : pidMachine.step s (.fork true true) = some (s.third (m + 2) false) := State.third_fork h hm
    refine ⟨s', ?_, by rwa [show m + (n + 1) = m + 1 + n by omega], ?_⟩
    · refine pidMachine.run_cons.2 ⟨_, hfork, pidMachine.run_cons.2 ⟨_, State.third_exit _ _, ?_⟩⟩
      exact pidMachine.run_cons.2 ⟨_, State.third_reap _ _, hrun⟩
    · have h3 : ∀ z, (s.third (m + 2) z).tasks.length ≤ 3 := fun _ => Nat.le_refl 3
      refine ⟨by show s.tasks.length ≤ 3; rw [h.tasks]; decide, fun t ht => ?_⟩
      rw [hfork] at ht
      cases ht
      refine ⟨h3 false, fun t ht => ?_⟩
      cases ht.symm.trans (State.third_exit s (m + 2))
      refine ⟨h3 true, fun t ht => ?_⟩
      cases ht.symm.trans (State.third_reap s (m + 2))
      exact hall

/-- **Forks run out with three tasks at a time**: after 32766 cycles `alloc_pid` finds no PID. -/
theorem fork_runs_out : ∃ l s, pidMachine.run boot l = some s ∧
    pidMachine.Always (fun s => s.tasks.length ≤ 3) boot l ∧ (allocPid s).1 = none := by
  have h0 : After 0 boot := ⟨rfl, fun _ => rfl, rfl⟩
  obtain ⟨s, hrun, hafter, hall⟩ := After.cycles 32766 h0 (by decide)
  refine ⟨_, s, hrun, hall, ?_⟩
  have hfull : ∀ pid < pidMax, s.pidBitmap pid = true := by
    intro pid hp
    rw [hafter.taken]
    exact decide_eq_true hp
  unfold allocPid
  rw [allocFrom_of_full hfull pidMax _ (nextPid_bounds s.lastPid).2]

/-- A fork and an exit. -/
theorem lifecycle_in_two : ∃ s, pidMachine.run boot [.fork true true, .exit 2] = some s ∧
    (pidMachine.Always Lifecycle boot [.fork true true, .exit 2] ↔
      pidMachine.RunOk (fun _ a => NoReap a) boot [.fork true true, .exit 2] s) := by
  have h0 : After 0 boot := ⟨rfl, fun _ => rfl, rfl⟩
  have hrun : pidMachine.run boot [.fork true true, .exit 2] = some (boot.third 2 true) :=
    pidMachine.run_cons.2 ⟨_, State.third_fork h0 (by decide), pidMachine.run_cons.2 ⟨_, State.third_exit _ _, rfl⟩⟩
  exact ⟨_, hrun, lifecycle_iff_of_run boot _ _ rfl hrun⟩

end Pid
end Pico
