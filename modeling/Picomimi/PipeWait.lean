import Picomimi.Pipe
/-!
# PipeWait — sleeping on a pipe

The same pipe with the wait queues and the tasks' states.  `pipe_wait` links the task, drops the pipe's lock, stores
`TASK_INTERRUPTIBLE` and calls `schedule`; `pipe_wake_queue` walks a queue under the queue's lock and `sched_wake_up` does
nothing for a task that is still `TASK_RUNNING`.  Each of these is a step of a task, and so is each lock that has to be
waited for.
-/
namespace Pico
namespace PipeWait

open Lib Pipe

/-- `read_wait` and `write_wait`. -/
inductive Queue where
  | read | write
deriving DecidableEq

/-- A call in progress. -/
inductive Call where
  | read (count : Nat) (nonblock : Bool)
  | write (buf : List UInt8) (written : Nat) (nonblock : Bool)

/-- The queue the call sleeps on. -/
def Call.queue : Call → Queue
  | .read _ _ => .read
  | .write _ _ _ => .write

/-- What a task does next.  `after` is the call it goes on with, `none` being its return. -/
inductive Pc where
  | user
  | top (c : Call)                     -- the loop: takes the pipe's lock and looks at the pipe
  | enq (c : Call)                     -- has to wait, and holds the pipe's lock
  | set (c : Call)                     -- is linked; stores `TASK_INTERRUPTIBLE`
  | sched (c : Call)
  | asleep (c : Call)                  -- inside `schedule`; then takes the pipe's lock
  | deq (c : Call)                     -- holds the pipe's lock, still linked
  | wake (q : Queue) (after : Option Call)
  | scan (q : Queue) (rest : List Nat) (after : Option Call)

/-- The pipe, its queues and their locks, and the tasks: is the state `TASK_INTERRUPTIBLE`, is a signal pending. -/
structure System where
  pi : PipeInode
  waitq : Queue → List Nat
  wqLock : Queue → Option Nat
  interruptible : Nat → Bool
  signal : Nat → Bool
  pc : Nat → Pc

def System.go (s : System) (t : Nat) (p : Pc) : System := { s with pc := Function.update s.pc t p }

def resume : Option Call → Pc
  | none => .user
  | some c => .top c

/-- The test of `pipe_write` that makes it wait. -/
def WriteBlocked (pi : PipeInode) (buf : List UInt8) : Prop :=
  pbufSpace pi.buf = 0 ∨ (buf.length ≤ pipeBuf ∧ pbufSpace pi.buf < buf.length)

instance (pi : PipeInode) (buf : List UInt8) : Decidable (WriteBlocked pi buf) := inferInstanceAs (Decidable (_ ∨ _))

/-- A turn of the loop of `pipe_read` or `pipe_write`, with the pipe's lock free before it.  A turn that moved bytes wakes
the other side. -/
def topTurn (s : System) (t : Nat) : Call → System
  | .read count nonblock =>
    match pipeReadTurn s.pi count nonblock with
    | (pi, .ret _) => { s with pi := pi }.go t (if 0 < s.pi.buf.count then .wake .write none else .user)
    | (pi, .go _) => { s with pi := { pi with lock := some t } }.go t (.enq (.read count nonblock))
  | .write buf written nonblock =>
    if s.pi.readers = 0 then s.go t .user
    else if WriteBlocked s.pi buf then
      if nonblock then s.go t .user
      else { s with pi := { s.pi with lock := some t } }.go t (.enq (.write buf written nonblock))
    else
      match pipeWriteTurn s.pi buf written nonblock with
      | (pi, n, .go _) => { s with pi := pi }.go t (.wake .read (some (.write buf (written + n) nonblock)))
      | (pi, _, .ret _) => { s with pi := pi }.go t (.wake .read none)

/-- The end of `pipe_wait` and what its caller does with the result: `pipe_read` unlocks; `pipe_write` unlocks for a signal
only. -/
def deqTurn (s : System) (t : Nat) (c : Call) : System :=
  let s' := { s with waitq := Function.update s.waitq c.queue ((s.waitq c.queue).erase t) }
  match c with
  | .read _ _ => { s' with pi := { s'.pi with lock := none } }.go t (if s.signal t then .user else .top c)
  | .write _ _ _ =>
    if s.signal t then { s' with pi := { s'.pi with lock := none } }.go t .user else s'.go t (.top c)

/-- `spin_lock(pipe_lock)` after `schedule`. -/
def relock (s : System) (t : Nat) (c : Call) : Option System :=
  if s.pi.lock.isSome then none else some ({ s with pi := { s.pi with lock := some t } }.go t (.deq c))

/-- The next step of task `t`; `none` while it spins on a lock or sleeps. -/
def turn (s : System) (t : Nat) : Option System :=
  match s.pc t with
  | .user => none
  | .top c => if s.pi.lock.isSome then none else some (topTurn s t c)
  | .enq c =>
    if (s.wqLock c.queue).isSome then none
    else some ({ s with
      pi := { s.pi with lock := none }
      waitq := Function.update s.waitq c.queue (s.waitq c.queue ++ [t]) }.go t (.set c))
  | .set c => some ({ s with interruptible := Function.update s.interruptible t true }.go t (.sched c))
  | .sched c => some (s.go t (.asleep c))
  | .asleep c => if s.interruptible t then none else relock s t c
  | .deq c => if (s.wqLock c.queue).isSome then none else some (deqTurn s t c)
  | .wake q after =>
    if (s.wqLock q).isSome then none
    else some ({ s with wqLock := Function.update s.wqLock q (some t) }.go t (.scan q (s.waitq q) after))
  | .scan q [] after => some ({ s with wqLock := Function.update s.wqLock q none }.go t (resume after))
  | .scan q (u :: rest) after =>       -- `sched_wake_up`
    some ({ s with interruptible := Function.update s.interruptible u false }.go t (.scan q rest after))

inductive Label where
  | call (t : Nat) (c : Call)
  | turn (t : Nat)
  | idle (t : Nat)                     -- `schedule` finds nothing else to run, and returns
  | release (t : Nat) (e : Queue)      -- the end of that side is closed
  | signal (t : Nat)
  | deliver (t : Nat)

/-- `pipe_read` and `pipe_write` up to their loops. -/
def entry (s : System) : Call → Pc
  | .read count nonblock => if count = 0 then .user else .top (.read count nonblock)
  | .write buf _ nonblock => if buf.length = 0 ∨ s.pi.readers = 0 then .user else .top (.write buf 0 nonblock)

/-- `pipe_read_release` and `pipe_write_release` of an end that is counted, up to the walk of the other side's queue. -/
def release (s : System) (t : Nat) : Queue → Option System
  | .read =>
    if s.pi.readers = 0 then none
    else some ({ s with pi := { s.pi with readers := s.pi.readers - 1 } }.go t (.wake .write none))
  | .write =>
    if s.pi.writers = 0 then none
    else some ({ s with pi := { s.pi with writers := s.pi.writers - 1 } }.go t (.wake .read none))

def step (s : System) : Label → Option System
  | .call t c =>
    match s.pc t with
    | .user => some (s.go t (entry s c))
    | _ => none
  | .turn t => turn s t
  | .idle t =>
    match s.pc t with
    | .asleep c => relock s t c
    | _ => none
  | .release t e =>
    match s.pc t with
    | .user => release s t e
    | _ => none
  | .signal t => some { s with
      signal := Function.update s.signal t true
      interruptible := Function.update s.interruptible t false }
  | .deliver t =>
    match s.pc t with
    | .user => some { s with signal := Function.update s.signal t false }
    | _ => none

/-- A pipe fresh from `pipe_alloc` with any ends, and every task outside. -/
def machine : Machine System Label where
  init s := (∃ bufSize data pi, pipeAlloc bufSize data = some pi ∧
      s.pi = { pi with readers := s.pi.readers, writers := s.pi.writers }) ∧
    (∀ q, s.waitq q = []) ∧ (∀ q, s.wqLock q = none) ∧ (∀ t, s.interruptible t = false) ∧ ∀ t, s.pc t = .user
  step := step

/-- The pipe holds what the call waits for: data, or room for the write. -/
def Ready (pi : PipeInode) : Call → Prop
  | .read _ _ => 0 < pi.buf.count
  | .write buf _ _ => ¬WriteBlocked pi buf

/-- The other side is gone. -/
def Closed (pi : PipeInode) : Call → Prop
  | .read _ _ => pi.writers = 0
  | .write _ _ _ => pi.readers = 0

/-- A task is about to walk the queue. -/
def About (s : System) (q : Queue) : Prop := ∃ u after, s.pc u = .wake q after

/-- A task is about to walk the queue, or has yet to come to `t`. -/
def Pending (s : System) (q : Queue) (t : Nat) : Prop :=
  About s q ∨ ∃ u rest after, s.pc u = .scan q rest after ∧ t ∈ rest

/-- **No task sleeps on a pipe that has what it waits for**, or whose other side is gone, with no wakeup of it pending. -/
def NoLostWakeup (s : System) : Prop :=
  ∀ t c, s.pc t = .asleep c → s.interruptible t = true → Ready s.pi c ∨ Closed s.pi c → Pending s c.queue t

/-- **A queue is not walked past a task that should be woken and is on its way to sleep**: the walk does not begin between
the task's look at the pipe and its linking, and does not come to it between its linking and its store. -/
def Clear (s : System) : Label → Prop
  | .turn v =>
    match s.pc v with
    | .wake q _ => ∀ t c, s.pc t = .enq c → c.queue = q → ¬(Ready s.pi c ∨ Closed s.pi c)
    | .scan _ (u :: _) _ => ∀ c, s.pc u = .set c → ¬(Ready s.pi c ∨ Closed s.pi c)
    | _ => True
  | _ => True

end PipeWait
end Pico
