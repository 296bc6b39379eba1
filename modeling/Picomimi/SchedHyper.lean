import Picomimi.Lib.Links
import Picomimi.Lib.Run
import Picomimi.Lib.Word
/-!
# SchedHyper — the domains of the scheduler hypervisor

A domain has a queue of entities, kept by its class: in the order of their deadlines, of their `vruntime`s, or as they
come.  An entity on a CPU is `curr` of a domain and is taken off the queue when another one was `curr` before; it stays
queued when it is picked again.  Every other class yields with the `coop_yield` of the cooperative one, which reads
`class_data` as a list head.  What only the statistics, the log and the fibers' stacks read is left out.
-/
namespace Pico
namespace SchedHyper

open Lib

/-- `sched_class_type_t`, of the classes that are registered. -/
inductive Class where
  | cooperative | realtime | batch | idle | fair
deriving DecidableEq

/-- A list head, an entity's `run_list`, or the address 0, a cell like any other to the code that follows it. -/
inductive Node where
  | null
  | queue (d : Nat)
  | entity (e : Nat)
deriving DecidableEq

/-- `sched_entity_t`. -/
structure Entity where
  domain : Option Nat
  task : Option Nat
  vruntime : Nat
  deadline : Nat
  timeSlice : Int
  onRq : Bool

/-- `sched_domain_t`, with what its class keeps behind `class_data`. -/
structure Domain where
  sclass : Class
  nrRunning : Nat
  curr : Option Nat
  priority : Int
  active : Bool
  timeslice : Nat
  timesliceRemaining : Nat
  earliestDeadline : Nat
  minVruntime : Nat

structure State where
  links : Links Node
  ents : Nat → Entity
  dom : Nat → Domain
  nrDomains : Nat
  currentDomain : Nat → Option Nat      -- by CPU
  running : Nat → Bool                  -- by task: `state == TASK_RUNNING`

namespace State

def setEnt (s : State) (e : Nat) (se : Entity) : State := { s with ents := Function.update s.ents e se }

def setDom (s : State) (d : Nat) (D : Domain) : State := { s with dom := Function.update s.dom d D }

end State

/-- The list of a domain: the first field of its class's data, or `runqueue` in the idle class. -/
def head (d : Nat) : Node := .queue d

/-- What `coop_yield` takes for the ready queue: the idle class has no data. -/
def classData (s : State) (d : Nat) : Node := if (s.dom d).sclass = .idle then .null else .queue d

/-- `list_first_entry`, or none if `list_empty`. -/
def firstEntity (s : State) (d : Nat) : Option Nat :=
  match s.links.next (head d) with
  | .entity e => some e
  | _ => none

/-- What `nr_running--` leaves of a `u32`. -/
def decr (n : Nat) : Nat := if n = 0 then word32 - 1 else n - 1

/-! ## The classes -/

/-- Put the entity before `pos`. -/
def link (s : State) (d e : Nat) (pos : Node) : State :=
  let s := { s with links := s.links.listAddTail (.entity e) pos }
  let s := s.setEnt e { s.ents e with onRq := true }
  s.setDom d { s.dom d with nrRunning := (s.dom d).nrRunning + 1 }

def unlink (s : State) (d e : Nat) : State :=
  let s := { s with links := s.links.listDel .null (.entity e) }
  let s := s.setEnt e { s.ents e with onRq := false }
  s.setDom d { s.dom d with nrRunning := decr (s.dom d).nrRunning }

/-- The loop of `rt_enqueue` and `fair_enqueue`: up to the first entity with a greater key, in so many turns. -/
def insertPos (s : State) (key : Entity → Nat) (k d : Nat) : Nat → Node → Option Node
  | 0, _ => none
  | turns + 1, pos =>
    if pos = head d then some pos
    else match pos with
      | .entity x => if k < key (s.ents x) then some pos else insertPos s key k d turns (s.links.next pos)
      | _ => none

/-- `coop_enqueue` and `idle_enqueue`. -/
def coopEnqueue (s : State) (d e : Nat) : State := link s d e (head d)

def rtEnqueue (turns : Nat) (s : State) (d e : Nat) : Option State :=
  match insertPos s Entity.deadline (s.ents e).deadline d turns (s.links.next (head d)) with
  | none => none
  | some pos =>
    let s := link s d e pos
    some (if (s.ents e).deadline < (s.dom d).earliestDeadline then
        s.setDom d { s.dom d with earliestDeadline := (s.ents e).deadline } else s)

/-- `data->period` and `data->granularity`. -/
def Class.period : Class → Nat
  | .batch => 1000
  | _ => 100

def Class.granularity : Class → Nat
  | .batch => 100
  | _ => 10

def fairCalcSlice (D : Domain) : Nat :=
  if D.nrRunning = 0 then D.sclass.period
  else if D.sclass.period / D.nrRunning < D.sclass.granularity then D.sclass.granularity
  else D.sclass.period / D.nrRunning

def fairEnqueue (turns : Nat) (s : State) (d e : Nat) : Option State :=
  let s := if (s.ents e).vruntime = 0 then s.setEnt e { s.ents e with vruntime := (s.dom d).minVruntime } else s
  match insertPos s Entity.vruntime (s.ents e).vruntime d turns (s.links.next (head d)) with
  | none => none
  | some pos =>
    let s := link s d e pos
    some (s.setEnt e { s.ents e with timeSlice := fairCalcSlice (s.dom d) })

/-- `coop_dequeue` and `idle_dequeue`. -/
def coopDequeue (s : State) (d e : Nat) : State := unlink s d e

def rtDequeue (s : State) (d e : Nat) : State :=
  let s := unlink s d e
  s.setDom d { s.dom d with
    earliestDeadline := match firstEntity s d with
      | none => word64 - 1
      | some x => (s.ents x).deadline }

def fairDequeue (s : State) (d e : Nat) : State :=
  let s := unlink s d e
  match firstEntity s d with
  | none => s
  | some x =>
    if (s.dom d).minVruntime < (s.ents x).vruntime then
      s.setDom d { s.dom d with minVruntime := (s.ents x).vruntime }
    else s

/-- `sclass->enqueue`, in at most so many turns of its loop. -/
def enqueue (turns : Nat) (s : State) (d e : Nat) : Option State :=
  match (s.dom d).sclass with
  | .cooperative | .idle => some (coopEnqueue s d e)
  | .realtime => rtEnqueue turns s d e
  | .fair | .batch => fairEnqueue turns s d e

/-- `sclass->dequeue`. -/
def dequeue (s : State) (d e : Nat) : State :=
  match (s.dom d).sclass with
  | .cooperative | .idle => coopDequeue s d e
  | .realtime => rtDequeue s d e
  | .fair | .batch => fairDequeue s d e

/-- `sclass->yield`, in every class. -/
def coopYield (s : State) (d e : Nat) : State :=
  if (s.ents e).onRq then
    { s with links := (s.links.listDel .null (.entity e)).listAddTail (.entity e) (classData s d) }
  else s

/-- `sclass->pick_next`, in every class. -/
def pickNext (s : State) (d : Nat) : Option Nat := firstEntity s d

def fairTick (s : State) (d c : Nat) : State :=
  let s := s.setEnt c { s.ents c with vruntime := add64 (s.ents c).vruntime 1, timeSlice := (s.ents c).timeSlice - 1 }
  if (s.dom d).minVruntime < (s.ents c).vruntime then
    match firstEntity s d with
    | none => s
    | some x => s.setDom d { s.dom d with minVruntime := (s.ents x).vruntime }
  else s

/-- `sclass->tick`; the other classes count and log. -/
def classTick (s : State) (d c : Nat) : State :=
  match (s.dom d).sclass with
  | .fair | .batch => fairTick s d c
  | .cooperative | .realtime | .idle => s

def rtShouldPreempt (s : State) (d c : Nat) : Bool :=
  match firstEntity s d with
  | none => false
  | some x => x ≠ c ∧ (s.ents x).deadline < (s.ents c).deadline

def fairShouldPreempt (s : State) (d c : Nat) : Bool :=
  if (s.ents c).timeSlice ≤ 0 then true
  else match firstEntity s d with
    | none => false
    | some x => x ≠ c ∧ add64 (s.ents x).vruntime (s.dom d).sclass.granularity < (s.ents c).vruntime

/-- `sclass->should_preempt`. -/
def shouldPreempt (s : State) (d c : Nat) : Bool :=
  match (s.dom d).sclass with
  | .cooperative => false
  | .idle => true
  | .realtime => rtShouldPreempt s d c
  | .fair | .batch => fairShouldPreempt s d c

/-! ## The calls -/

def schedEntityAttach (turns : Nat) (s : State) (e d : Nat) : Option State :=
  enqueue turns (s.setEnt e { s.ents e with domain := some d }) d e

def schedEntityDetach (s : State) (e : Nat) : State :=
  match (s.ents e).domain with
  | none => s
  | some d =>
    let s := if (s.ents e).onRq then dequeue s d e else s
    s.setEnt e { s.ents e with domain := none }

/-- The loop of `hypervisor_pick_domain`. -/
def pickDomainFrom (s : State) : Nat → Nat → Option Nat → Int → Option Nat
  | 0, _, best, _ => best
  | n + 1, i, best, bestPriority =>
    if (s.dom i).active ∧ 0 < (s.dom i).nrRunning ∧ (s.dom i).priority < bestPriority then
      pickDomainFrom s n (i + 1) (some i) (s.dom i).priority
    else pickDomainFrom s n (i + 1) best bestPriority

def hypervisorPickDomain (s : State) : Option Nat := pickDomainFrom s s.nrDomains 0 none 999

def State.setCurrent (s : State) (cpu d : Nat) : State :=
  { s with currentDomain := Function.update s.currentDomain cpu (some d) }

/-- The domain `sched_hypervisor_schedule` works on. -/
def currentOrPicked (s : State) (cpu : Nat) : Option (Nat × State) :=
  match s.currentDomain cpu with
  | some d => some (d, s)
  | none =>
    match hypervisorPickDomain s with
    | none => none
    | some d => some (d, s.setCurrent cpu d)

/-- "Re-enqueue previous if still runnable". -/
def requeuePrev (turns : Nat) (s : State) (d : Nat) : Option State :=
  match (s.dom d).curr with
  | none => some s
  | some prev =>
    match (s.ents prev).task with
    | none => some s
    | some t =>
      if s.running t then
        match (if (s.ents prev).onRq then some s else enqueue turns s d prev) with
        | none => none
        | some s => some (s.setEnt prev { s.ents prev with timeSlice := 100 })
      else some s

/-- The rest of `sched_hypervisor_schedule`, with what `pick_next` returned. -/
def switchTo (s : State) (d : Nat) (next : Option Nat) : State :=
  match next with
  | none => s.setDom d { s.dom d with curr := none }
  | some e =>
    let s := if some e ≠ (s.dom d).curr ∧ (s.ents e).onRq then dequeue s d e else s
    s.setDom d { s.dom d with curr := some e }

/-- `sched_hypervisor_schedule` up to `pick_next`: the domain, if there is one, and the state it picks in. -/
def scheduleTo (turns : Nat) (s : State) (cpu : Nat) : Option (Option Nat × State) :=
  match currentOrPicked s cpu with
  | none => some (none, s)
  | some (d, s) => (requeuePrev turns s d).map fun s => (some d, s)

def schedHypervisorSchedule (turns : Nat) (s : State) (cpu : Nat) : Option State :=
  match scheduleTo turns s cpu with
  | none => none
  | some (none, s) => some s
  | some (some d, s) => some (switchTo s d (pickNext s d))

/-- "Tick current domain's scheduler". -/
def tickCurr (s : State) (d : Nat) : State :=
  match (s.dom d).curr with
  | none => s
  | some c => classTick s d c

/-- `need_entity_switch`. -/
def needEntitySwitch (s : State) (d : Nat) : Bool :=
  match (s.dom d).curr with
  | none => false
  | some c => shouldPreempt s d c

/-- "Handle domain switch". -/
def switchDomain (s : State) (cpu d : Nat) : State :=
  match hypervisorPickDomain s with
  | none => s
  | some next => if next = d then s else s.setCurrent cpu next

/-- `sched_hypervisor_tick` up to its call of `sched_hypervisor_schedule`, and whether it makes it. -/
def tickBody (s : State) (cpu : Nat) : Bool × State :=
  match s.currentDomain cpu with
  | none =>
    match hypervisorPickDomain s with
    | none => (false, s)
    | some d => (false, s.setCurrent cpu d)
  | some d =>
    let s := tickCurr s d
    let left := sub64 (s.dom d).timesliceRemaining 1
    let s := s.setDom d { s.dom d with timesliceRemaining := if left = 0 then (s.dom d).timeslice else left }
    (needEntitySwitch s d, if left = 0 then switchDomain s cpu d else s)

def schedHypervisorTick (turns : Nat) (s : State) (cpu : Nat) : Option State :=
  if (tickBody s cpu).1 then schedHypervisorSchedule turns (tickBody s cpu).2 cpu else some (tickBody s cpu).2

/-- `sched_hypervisor_yield` up to its call of `sched_hypervisor_schedule`, if there is something to yield. -/
def yieldBody (s : State) (cpu : Nat) : Option State :=
  match s.currentDomain cpu with
  | none => none
  | some d => (s.dom d).curr.map (coopYield s d)

def schedHypervisorYield (turns : Nat) (s : State) (cpu : Nat) : Option State :=
  match yieldBody s cpu with
  | none => some s
  | some s => schedHypervisorSchedule turns s cpu

/-! ## Runs -/

/-- The calls; `turns` is enough for the loop over a queue, which ends only if the queue is a ring. -/
inductive Label where
  | attach (e d turns : Nat)
  | detach (e : Nat)
  | tick (cpu turns : Nat)
  | schedule (cpu turns : Nat)
  | yield (cpu turns : Nat)
  | setState (t : Nat) (running : Bool)

def step (s : State) : Label → Option State
  | .attach e d turns => schedEntityAttach turns s e d
  | .detach e => some (schedEntityDetach s e)
  | .tick cpu turns => schedHypervisorTick turns s cpu
  | .schedule cpu turns => schedHypervisorSchedule turns s cpu
  | .yield cpu turns => schedHypervisorYield turns s cpu
  | .setState t b => some { s with running := Function.update s.running t b }

/-- Where a call picks: the state and the domain. -/
def atPick (s : State) : Label → Option (Option Nat × State)
  | .tick cpu turns => if (tickBody s cpu).1 then scheduleTo turns (tickBody s cpu).2 cpu else none
  | .schedule cpu turns => scheduleTo turns s cpu
  | .yield cpu turns =>
    match yieldBody s cpu with
    | none => none
    | some s => scheduleTo turns s cpu
  | .attach .. | .detach _ | .setState .. => none

/-- Domains with empty queues and entities in none, no CPU in a domain. -/
def machine : Machine State Label where
  init s := (∀ d, s.links.next (head d) = head d ∧ s.links.prev (head d) = head d) ∧
    (∀ e, (s.ents e).onRq = false ∧ (s.ents e).domain = none) ∧
    (∀ d, (s.dom d).nrRunning = 0 ∧ (s.dom d).curr = none) ∧ ∀ cpu, s.currentDomain cpu = none
  step := step

end SchedHyper
end Pico
