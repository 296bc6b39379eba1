import Picomimi.Lib.SpinLocks
import Picomimi.SchedBalance
/-!
# SchedLocks — the run queue locks of `kernel/sched.c`

Every call that changes a run queue holds the lock of the queue, `sched_load_balance` those of two queues.  The calls of all
processors take the steps of `spin_lock` and `spin_unlock` in any order.  A system call clears the interrupt flag and so does an
interrupt gate, so a processor is in one of these calls at a time.
-/
namespace Pico
namespace Sched

open Lib SpinLocks

/-- `rq_lock_pair`, which goes by the numbers of the processors. -/
def rqLockPair (a b : Nat) : List Nat := if a < b then [a, b] else [b, a]

def rqUnlockPair (a b : Nat) : List Nat := [a, b]

/-- The calls that take locks, with the processor whose run queue they work on. -/
inductive LockCall
  | schedEnqueueTask
  | scheduleImpl (cpu : Nat)
  | schedWakeUp (cpu : Nat)
  | schedSleep (cpu : Nat)
  | schedSetscheduler (cpu : Nat)
  /-- The balancer, when it has found another queue to pull from. -/
  | schedLoadBalance (s : State) (this src : Nat) (found : findBusiestQueue s this = some src)

def LockCall.locks : LockCall → List Nat
  | .schedEnqueueTask => [0]
  | .scheduleImpl cpu | .schedWakeUp cpu | .schedSleep cpu | .schedSetscheduler cpu => [cpu]
  | .schedLoadBalance _ this src _ => rqLockPair this src

def LockCall.unlocks : LockCall → List Nat
  | .schedEnqueueTask => [0]
  | .scheduleImpl cpu | .schedWakeUp cpu | .schedSleep cpu | .schedSetscheduler cpu => [cpu]
  | .schedLoadBalance _ this src _ => rqUnlockPair this src

theorem rqLockPair_ascending {a b : Nat} (h : b ≠ a) : (rqLockPair a b).Pairwise (· < ·) := by
  rw [rqLockPair]
  by_cases hab : a < b
  · rw [if_pos hab]
    exact List.pairwise_pair.2 hab
  · rw [if_neg hab]
    exact List.pairwise_pair.2 (by omega)

theorem rqUnlockPair_perm (a b : Nat) : (rqUnlockPair a b).Perm (rqLockPair a b) := by
  rw [rqLockPair, rqUnlockPair]
  split
  · exact List.Perm.refl _
  · exact List.Perm.swap b a []

/-- **Every call takes its locks in ascending order**, the balancer because the queue it pulls from is not its own. -/
def schedCalls : Calls LockCall Nat where
  locks := LockCall.locks
  unlocks := LockCall.unlocks
  ascending k := by
    cases k with
    | schedLoadBalance s this src found => exact rqLockPair_ascending (findBusiestQueue_ne found)
    | _ => exact List.pairwise_singleton _ _
  perm k := by
    cases k with
    | schedLoadBalance s this src found => exact rqUnlockPair_perm this src
    | _ => exact List.Perm.refl _

/-- The processors and what they do about the locks. -/
def lockMachine : Machine (SpinLocks.State (Fin nrCpus) LockCall Nat) (SpinLocks.Op (Fin nrCpus) LockCall) :=
  SpinLocks.machine (Fin nrCpus) schedCalls

/-- A call that has taken all its locks and given none back: what it does to the run queues happens now. -/
def Inside (k : Call LockCall Nat) : Prop := k.waits = [] ∧ k.unlocks = k.kind.unlocks

/-- **In whatever order the processors take the steps of their locks**, no two of them are ever inside calls that work on one
run queue, and from every state that can be reached all calls can be brought to their end. -/
theorem run_locks {s₀ s : SpinLocks.State (Fin nrCpus) LockCall Nat} {ops : List (SpinLocks.Op (Fin nrCpus) LockCall)}
    (h0 : lockMachine.init s₀) (h : lockMachine.run s₀ ops = some s) :
    (∀ c d k k' q, s.call c = some k → s.call d = some k' → Inside k → Inside k' → q ∈ k.kind.locks → q ∈ k'.kind.locks → c = d) ∧
      ∃ ops' s', lockMachine.run s ops' = some s' ∧ (∀ op ∈ ops', op.goesOn = true) ∧ ∀ c, s'.call c = none := by
  have hinv : Inv schedCalls s := SpinLocks.run_inv h0 h
  refine ⟨fun c d k k' q hc hd hin hin' hq hq' => ?_, hinv.finish (Nat.le_refl _)⟩
  exact hinv.exclusive hc hd hin.1 hin.2 hin'.1 hin'.2 hq hq'

/-- Nobody in a call. -/
def unlocked : SpinLocks.State (Fin nrCpus) LockCall Nat := ⟨fun _ => false, fun _ => none⟩

def cpu0 : Fin nrCpus := ⟨0, by decide⟩
def cpu1 : Fin nrCpus := ⟨1, by decide⟩

theorem uneven_busiest : findBusiestQueue uneven 1 = some 0 := by decide +kernel

/-- The balancer of processor 1 waits for the queue of processor 0, which is inside the scheduler. -/
def balancing : List (SpinLocks.Op (Fin nrCpus) LockCall) :=
  [.enter cpu1 (.schedLoadBalance uneven 1 0 uneven_busiest), .enter cpu0 (.scheduleImpl 0), .exchange cpu0, .exchange cpu1,
    .look cpu1]

theorem run_locks_balancing : ∃ s, lockMachine.run unlocked balancing = some s ∧ (s.call cpu1).map Call.spins = some true ∧
    ∃ ops' s', lockMachine.run s ops' = some s' ∧ ∀ c, s'.call c = none := by
  have hrun : (lockMachine.run unlocked balancing).map (fun s => (s.call cpu1).map Call.spins) = some (some true) := by
    decide +kernel
  obtain ⟨s, hs, hspins⟩ := Option.map_eq_some_iff.1 hrun
  obtain ⟨-, ops', s', hrun', -, hall⟩ := run_locks ⟨fun _ => rfl, fun _ => rfl⟩ hs
  exact ⟨s, hs, hspins, ops', s', hrun', hall⟩

end Sched
end Pico
