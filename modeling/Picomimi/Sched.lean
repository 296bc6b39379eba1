import Mathlib.Data.BitVec
import Picomimi.Lib.Links
import Picomimi.Lib.Word
/-!
# Sched — the O(1) scheduler of `kernel/sched.c`

Run queues, tasks and list nodes are three stores.  A node is the head of a priority queue, a task's `run_list`, or the
address 0, which `list_del` leaves in a removed node and which is a cell like any other to the code that follows it.
`prio` is an `int` that indexes the queues unchecked, so it is an integer here too.
-/
namespace Pico
namespace Sched

open Lib

def maxPrio : Int := 140
def maxRtPrio : Int := 100
def timesliceBase : Int := 100
def timesliceMin : Nat := 10
def timesliceMax : Nat := 200

def taskRunning : Nat := 0
def taskInterruptible : Nat := 1

def schedNormal : Int := 0
def schedFifo : Int := 1
def schedRr : Int := 2
def schedBatch : Int := 3
def schedIdle : Int := 5

def lbImbalanceMin : Nat := 20
def lbPullMax : Nat := 4

def einval : Int := 22

inductive Node where
  | null
  | queue (cpu : Nat) (arr : Bool) (prio : Int)
  | task (t : Nat)
deriving DecidableEq

structure Task where
  state : Nat
  onRq : Bool
  prio : Int
  staticPrio : Int
  rtPriority : Nat
  policy : Int
  timeSlice : Nat
  cpu : Nat
  cpusAllowed : BitVec 64

/-- `u64 bitmap[SCHED_BITMAP_SIZE]`. -/
abbrev Bitmap := Int → BitVec 64

structure Runqueue where
  active : Bool                  -- which of the two arrays
  expired : Bool
  count : Bool → Int → Int       -- `arrays[a][p].count`
  activeBitmap : Bitmap
  expiredBitmap : Bitmap
  curr : Option Nat
  idle : Option Nat
  nrRunning : Nat
  nrSwitches : Nat
  nrMigrations : Nat
  cpu : Nat
  load : Nat
  clock : Nat

structure State where
  rqs : Nat → Runqueue
  tasks : Nat → Task
  links : Links Node

def State.setRq (s : State) (c : Nat) (rq : Runqueue) : State := { s with rqs := Function.update s.rqs c rq }

def State.setTask (s : State) (t : Nat) (task : Task) : State := { s with tasks := Function.update s.tasks t task }

/-! ## Bitmaps -/

/-- `__builtin_ctzll`. -/
def ctz (w : BitVec 64) : Nat := ((List.range 64).find? fun i => w.getLsbD i).getD 64

/-- The loop of `find_first_set_bit` from word `i` on; no result is -1. -/
def findFrom (bitmap : Bitmap) : Nat → Nat → Option Int
  | 0, _ => none
  | n + 1, i => if bitmap i ≠ 0 then some (i * 64 + ctz (bitmap i)) else findFrom bitmap n (i + 1)

def findFirstSetBit (bitmap : Bitmap) : Option Int := findFrom bitmap 8 0

def setPrioBit (bitmap : Bitmap) (prio : Int) : Bitmap :=
  Function.update bitmap (prio.tdiv 64) (bitmap (prio.tdiv 64) ||| 1#64 <<< (prio.tmod 64).toNat)

def clearPrioBit (bitmap : Bitmap) (prio : Int) : Bitmap :=
  Function.update bitmap (prio.tdiv 64) (bitmap (prio.tdiv 64) &&& ~~~(1#64 <<< (prio.tmod 64).toNat))

def testPrioBit (bitmap : Bitmap) (prio : Int) : Bool := (bitmap (prio.tdiv 64)).getLsbD (prio.tmod 64).toNat

/-! ## Priorities -/

/-- An integer stored in a `u64`. -/
def toU64 (x : Int) : Nat := (x % word64).toNat

/-- A `u32` read back as an `int`. -/
def toS32 (x : Int) : Int := (x + 2147483648) % 4294967296 - 2147483648

def effectivePrio (task : Task) : Int :=
  if task.policy = schedFifo ∨ task.policy = schedRr then toS32 (maxRtPrio - 1 - task.rtPriority) else task.staticPrio

def calculateTimeslice (task : Task) : Nat :=
  let timeslice := if task.prio < maxRtPrio then timesliceMax else toU64 (timesliceBase - (task.prio - 120) * 5)
  let timeslice := if timeslice < timesliceMin then timesliceMin else timeslice
  if timesliceMax < timeslice then timesliceMax else timeslice

/-! ## Queues -/

/-- `queue->count += d`. -/
def addCount (count : Bool → Int → Int) (arr : Bool) (prio d : Int) : Bool → Int → Int :=
  Function.update count arr (Function.update (count arr) prio (count arr prio + d))

def enqueueTask (s : State) (c t : Nat) : State :=
  let prio := (s.tasks t).prio
  let rq := s.rqs c
  { rqs := Function.update s.rqs c
      { rq with
        count := addCount rq.count rq.active prio 1
        activeBitmap := setPrioBit rq.activeBitmap prio
        nrRunning := add64 rq.nrRunning 1
        load := add64 rq.load (toU64 (maxPrio - prio)) }
    tasks := Function.update s.tasks t { s.tasks t with onRq := true }
    links := s.links.listAddTail (.task t) (.queue c rq.active prio) }

def dequeueTask (s : State) (c t : Nat) : State :=
  let prio := (s.tasks t).prio
  let rq := s.rqs c
  let count := addCount rq.count rq.active prio (-1)
  { rqs := Function.update s.rqs c
      { rq with
        count := count
        activeBitmap := if count rq.active prio = 0 then clearPrioBit rq.activeBitmap prio else rq.activeBitmap
        nrRunning := sub64 rq.nrRunning 1
        load := sub64 rq.load (toU64 (maxPrio - prio)) }
    tasks := Function.update s.tasks t { s.tasks t with onRq := false }
    links := s.links.listDel .null (.task t) }

/-- The load is not touched here. -/
def expireTask (s : State) (c t : Nat) : State :=
  let prio := (s.tasks t).prio
  let rq := s.rqs c
  { rqs := Function.update s.rqs c
      { rq with
        count := addCount rq.count rq.expired prio 1
        expiredBitmap := setPrioBit rq.expiredBitmap prio
        nrRunning := add64 rq.nrRunning 1 }
    tasks := Function.update s.tasks t { s.tasks t with onRq := true, timeSlice := calculateTimeslice (s.tasks t) }
    links := s.links.listAddTail (.task t) (.queue c rq.expired prio) }

def swapArrays (s : State) (c : Nat) : State :=
  let rq := s.rqs c
  s.setRq c
    { rq with
      active := rq.expired
      expired := rq.active
      activeBitmap := rq.expiredBitmap
      expiredBitmap := rq.activeBitmap }

/-- `list_first_entry` of a task list. -/
def Node.task? : Node → Option Nat
  | .task t => some t
  | _ => none

/-- `pick_next_task` on an empty active array: swap when the expired one has tasks. -/
def swapIfEmpty (s : State) (c : Nat) : State :=
  if (findFirstSetBit (s.rqs c).activeBitmap).isNone && (findFirstSetBit (s.rqs c).expiredBitmap).isSome then
    swapArrays s c
  else s

/-- The first task of the queue the bitmap names, or the idle task. -/
def firstTask (s : State) (c : Nat) : Option Nat :=
  let rq := s.rqs c
  match findFirstSetBit rq.activeBitmap with
  | none => rq.idle
  | some prio =>
    let head := Node.queue c rq.active prio
    if s.links.listEmpty head then rq.idle else (s.links.next head).task?

def pickNextTask (s : State) (c : Nat) : Option Nat × State := (firstTask (swapIfEmpty s c) c, swapIfEmpty s c)

/-- `if (prev && prev != rq->idle && prev->on_rq) dequeue_task(rq, prev);`. -/
def putPrev (s : State) (c : Nat) : State :=
  match (s.rqs c).curr with
  | none => s
  | some prev => if some prev ≠ (s.rqs c).idle ∧ (s.tasks prev).onRq = true then dequeueTask s c prev else s

/-- Queue the previous task again while it is runnable, in the expired array once its slice is used up. -/
def requeuePrev (s : State) (c : Nat) : State :=
  match (s.rqs c).curr with
  | none => s
  | some prev =>
    if some prev ≠ (s.rqs c).idle then
      if (s.tasks prev).state = taskRunning then
        if (s.tasks prev).timeSlice = 0 then expireTask (s.setTask prev { s.tasks prev with timeSlice := 100 }) c prev
        else enqueueTask s c prev
      else s
    else s

/-- The end of `schedule_impl`: the counters, and `rq->curr`. -/
def setCurr (s : State) (c : Nat) (next : Option Nat) : State :=
  let rq := s.rqs c
  let curr :=
    if next = none ∨ next = rq.idle then
      match rq.curr with
      | some prev => some prev
      | none => rq.idle
    else next
  s.setRq c { rq with nrSwitches := add64 rq.nrSwitches 1, clock := add64 rq.clock 1, curr := curr }

def scheduleImpl (s : State) (c : Nat) : State :=
  let r := pickNextTask (putPrev s c) c
  setCurr (requeuePrev r.2 c) c r.1

/-! ## Wakeups -/

/-- `sched_enqueue_task`: always the boot processor's queue. -/
def schedEnqueueTask (s : State) (t : Nat) : State := if (s.tasks t).onRq then s else enqueueTask s 0 t

def wakeUpProcess (s : State) (t : Nat) : State :=
  schedEnqueueTask (s.setTask t { s.tasks t with state := taskRunning }) t

def schedWakeUp (s : State) (t : Nat) : State :=
  if (s.tasks t).state ≠ taskRunning then
    let task := { s.tasks t with state := taskRunning, prio := effectivePrio (s.tasks t) }
    enqueueTask (s.setTask t { task with timeSlice := calculateTimeslice task }) (s.tasks t).cpu t
  else s

/-- The policy switch of `sched_setscheduler`; no result is the default branch. -/
def setPolicy (task : Task) (policy prio : Int) : Option Task :=
  let task := { task with policy := policy }
  if policy = schedFifo ∨ policy = schedRr then
    some { task with rtPriority := (prio % word32).toNat, prio := maxRtPrio - 1 - prio }
  else if policy = schedNormal ∨ policy = schedBatch ∨ policy = schedIdle then
    let task := { task with staticPrio := 120 + prio }
    some { task with prio := effectivePrio task }
  else none

def schedSetscheduler (s : State) (t : Nat) (policy prio : Int) : State × Int :=
  let c := (s.tasks t).cpu
  let onRq := (s.tasks t).onRq
  let s := if onRq then dequeueTask s c t else s
  match setPolicy (s.tasks t) policy prio with
  | none => (s.setTask t { s.tasks t with policy := policy }, -einval)
  | some task =>
    let s := s.setTask t { task with timeSlice := calculateTimeslice task }
    (if onRq then enqueueTask s c t else s, 0)

/-! ## Load balancing -/

/-- `rq->nr_migrations++`. -/
def countMigration (s : State) (c : Nat) : State :=
  s.setRq c { s.rqs c with nrMigrations := add64 (s.rqs c).nrMigrations 1 }

/-- `task_migrate`: its first half is `dequeue_task`, written out again in the source. -/
def taskMigrate (s : State) (t src dst : Nat) : State :=
  let s := if (s.tasks t).onRq then dequeueTask s src t else s
  let s := s.setTask t { s.tasks t with cpu := (s.rqs dst).cpu }
  countMigration (countMigration (enqueueTask s dst t) dst) src

/-- What the loop of `find_migratable` asks of a task. -/
def migratable (s : State) (src dstCpu t : Nat) : Bool :=
  some t ≠ (s.rqs src).curr && some t ≠ (s.rqs src).idle && (s.tasks t).state = taskRunning &&
    ((s.tasks t).cpusAllowed = 0 || (s.tasks t).cpusAllowed.getLsbD dstCpu)

/-- The loop of `find_migratable` over the priorities below `n`, from the highest number down.  The outer result is missing
when a list is not walked in `fuel` steps. -/
def findMigratable (s : State) (src dstCpu fuel : Nat) : Nat → Option (Option Nat)
  | 0 => some none
  | n + 1 =>
    let rq := s.rqs src
    if rq.count rq.active n = 0 then findMigratable s src dstCpu fuel n
    else
      match s.links.entries (.queue src rq.active n) fuel with
      | none => none
      | some nodes =>
        match (nodes.filterMap Node.task?).find? (migratable s src dstCpu) with
        | some t => some (some t)
        | none => findMigratable s src dstCpu fuel n

/-- The pull loop of `sched_load_balance`, both locks held. -/
def pullTasks (src this fuel : Nat) : Nat → State → Option State
  | 0, s => some s
  | n + 1, s =>
    if (s.rqs src).load ≤ add64 (s.rqs this).load lbImbalanceMin then some s
    else if (s.rqs src).nrRunning ≤ 1 then some s
    else
      match findMigratable s src this fuel 140 with
      | none => none
      | some none => some s
      | some (some t) => pullTasks src this fuel n (taskMigrate s t src this)

/-- `o1_sched_init`. -/
def initRq (cpu : Nat) : Runqueue where
  active := false
  expired := true
  count := fun _ _ => 0
  activeBitmap := fun _ => 0
  expiredBitmap := fun _ => 0
  curr := none
  idle := none
  nrRunning := 0
  nrSwitches := 0
  nrMigrations := 0
  cpu := cpu
  load := 0
  clock := 0

end Sched
end Pico
