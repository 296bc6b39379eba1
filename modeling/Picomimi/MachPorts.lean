import Mathlib.Data.List.Nodup
import Mathlib.Logic.Function.Basic
import Picomimi.Lib.Run
/-!
# MachPorts — the Mach port names of a task

A task's names are the slots of a table it gets on its first Mach trap; names 1, 2 and 3 stand for the task, its thread and
the host.  `task_fork` copies the pointer with the rest of the task, and `mk_timer_destroy` looks at no slot's type; apart
from these two every name means what it was given out for (`portsLaw_iff_runOk`).  What a name was given out for is the
`given` of a state, which is not in the source; nor are the `freed`, the semaphores that were handed to `kfree`.
-/
namespace Pico
namespace MachPorts

open Lib

def MACH_PORT_MAX_SLOTS : Nat := 32
def MACH_PORT_NAME_TASK_SELF : Nat := 1
def MACH_PORT_NAME_THREAD_SELF : Nat := 2
def MACH_PORT_NAME_HOST : Nat := 3
def MACH_PORT_NAME_FIRST_FREE : Nat := 4

inductive PortType | none | task | thread | semaphore | host
deriving DecidableEq

/-- What the `object` of a slot points to. -/
inductive Obj
  | null
  | task (id : Nat)
  | semaphore (id : Nat)
deriving DecidableEq

structure Slot where
  type : PortType
  object : Obj
  refs : Nat
deriving DecidableEq

def Slot.zero : Slot := ⟨.none, .null, 0⟩

/-- The fields of a task that concern its ports. -/
structure Task where
  machPorts : Option Nat
  machTaskPort : Nat
  machThreadPort : Nat

/-- What a create call gave a name out for. -/
inductive Given
  | semaphore (id : Nat)
  | timer
deriving DecidableEq

structure State where
  tasks : Nat → Option Task
  /-- The tables that are allocated, by address. -/
  tables : Nat → Option (Nat → Slot)
  nextTable : Nat
  nextSem : Nat
  freed : List Nat
  given : Nat → Nat → Option Given

/-- The slots of a new table. -/
def firstSlots (t : Nat) : Nat → Slot :=
  Function.update (Function.update (Function.update (fun _ => Slot.zero)
    MACH_PORT_NAME_TASK_SELF ⟨.task, .task t, 1⟩)
    MACH_PORT_NAME_THREAD_SELF ⟨.thread, .task t, 1⟩)
    MACH_PORT_NAME_HOST ⟨.host, .null, 1⟩

/-- `mach_ports_init_task`, with memory for the table or without. -/
def machPortsInitTask (s : State) (t : Nat) (mem : Bool) : State :=
  match s.tasks t with
  | none => s
  | some task =>
    if task.machPorts.isSome || !mem then s
    else { s with
      tables := Function.update s.tables s.nextTable (some (firstSlots t))
      nextTable := s.nextTable + 1
      tasks := Function.update s.tasks t
        (some ⟨some s.nextTable, MACH_PORT_NAME_TASK_SELF, MACH_PORT_NAME_THREAD_SELF⟩) }

/-- The table of the current task: it may have none, and the one it had may have been freed. -/
inductive Found
  | null
  | dangling
  | table (a : Nat) (slots : Nat → Slot)

def slotsOf (s : State) (t : Nat) : Found :=
  match s.tasks t with
  | none => .null
  | some task =>
    match task.machPorts with
    | none => .null
    | some a =>
      match s.tables a with
      | none => .dangling
      | some slots => .table a slots

def setSlot (s : State) (a : Nat) (slots : Nat → Slot) (name : Nat) (slot : Slot) : State :=
  { s with tables := Function.update s.tables a (some (Function.update slots name slot)) }

def give (s : State) (t name : Nat) (g : Option Given) : State :=
  { s with given := Function.update s.given t (Function.update (s.given t) name g) }

def kfreeSem (s : State) (id : Nat) : State := { s with freed := id :: s.freed }

/-- The loop of `mach_port_new_slot`. -/
def freeSlot (slots : Nat → Slot) : Option Nat :=
  (List.range' MACH_PORT_NAME_FIRST_FREE (MACH_PORT_MAX_SLOTS - MACH_PORT_NAME_FIRST_FREE)).find?
    fun i => (slots i).type = .none

/-- `mach_port_new_slot` on the table of the task, and the name it returns. -/
def machPortNewSlot (s : State) (a : Nat) (slots : Nat → Slot) (type : PortType) (object : Obj) : Option (State × Nat) :=
  (freeSlot slots).map fun i => (setSlot s a slots i ⟨type, object, 1⟩, i)

/-- `mach_port_lookup` in the table of the task. -/
def machPortLookup (slots : Nat → Slot) (name : Nat) : Option Slot :=
  if name = 0 ∨ MACH_PORT_MAX_SLOTS ≤ name then none
  else if (slots name).type = .none then none
  else some (slots name)

/-- `mach_semaphore_create`, with memory for the semaphore and for a table or without. -/
def machSemaphoreCreate (s : State) (t : Nat) (memSem memTab : Bool) : Option State :=
  if memSem = false then some s
  else
    let sem := s.nextSem
    let s := machPortsInitTask { s with nextSem := sem + 1 } t memTab
    match slotsOf s t with
    | .dangling => none
    | .null => some (kfreeSem s sem)
    | .table a slots =>
      match machPortNewSlot s a slots .semaphore (.semaphore sem) with
      | none => some (kfreeSem s sem)
      | some (s, name) => some (give s t name (some (.semaphore sem)))

/-- `kfree` of a slot's object. -/
def kfreeObject (s : State) : Obj → Option State
  | .null => some s
  | .semaphore id => some (kfreeSem s id)
  | .task _ => none

/-- What the call ends: the name, if it was given out for that kind. -/
def takeBack (s : State) (t name : Nat) (ofKind : Given → Bool) : State :=
  if (s.given t name).any ofKind then give s t name none else s

def Given.isSemaphore : Given → Bool
  | .semaphore _ => true
  | .timer => false

def Given.isTimer : Given → Bool
  | .semaphore _ => false
  | .timer => true

/-- `mach_semaphore_destroy`. -/
def machSemaphoreDestroy (s : State) (t name : Nat) : Option State :=
  match slotsOf s t with
  | .dangling => none
  | .null => some s
  | .table a slots =>
    match machPortLookup slots name with
    | none => some s
    | some slot =>
      if slot.type ≠ .semaphore then some s
      else (kfreeObject s slot.object).map fun s =>
        takeBack (setSlot s a slots name ⟨.none, .null, 0⟩) t name Given.isSemaphore

/-- `xnu_mk_timer_create`. -/
def mkTimerCreate (s : State) (t : Nat) (memTab : Bool) : Option State :=
  let s := machPortsInitTask s t memTab
  match slotsOf s t with
  | .dangling => none
  | .null => some s
  | .table a slots =>
    match machPortNewSlot s a slots .task .null with
    | none => some s
    | some (s, name) => some (give s t name (some .timer))

/-- `xnu_mk_timer_destroy`. -/
def mkTimerDestroy (s : State) (t name : Nat) : Option State :=
  match slotsOf s t with
  | .dangling => none
  | .null => some s
  | .table a slots =>
    match machPortLookup slots name with
    | none => some s
    | some slot => some (takeBack (setSlot s a slots name { slot with type := .none }) t name Given.isTimer)

/-- What `do_execve` does to the ports: the table goes, and with it every name. -/
def execPorts (s : State) (t : Nat) : Option State :=
  match s.tasks t with
  | none => none
  | some task =>
    let s := { s with
      tasks := Function.update s.tasks t (some ⟨none, 0, 0⟩)
      given := Function.update s.given t fun _ => none }
    match task.machPorts with
    | none => some s
    | some a => if (s.tables a).isNone then none else some { s with tables := Function.update s.tables a none }

/-- The copy of the parent that `task_fork` makes. -/
def forkPorts (s : State) (t child : Nat) : Option State :=
  match s.tasks t, s.tasks child with
  | some task, none => some { s with tasks := Function.update s.tasks child (some task) }
  | _, _ => none

/-- A task that is gone; its table is not freed. -/
def exitPorts (s : State) (t : Nat) : State :=
  { s with tasks := Function.update s.tasks t none, given := Function.update s.given t fun _ => none }

/-- A step of a task; `mem` says which allocations succeed, and a `none` of a step that the code reads freed memory there. -/
inductive Label
  | trap (t : Nat) (mem : Bool)
  | semaphoreCreate (t : Nat) (memSem memTab : Bool)
  | semaphoreDestroy (t name : Nat)
  | timerCreate (t : Nat) (mem : Bool)
  | timerDestroy (t name : Nat)
  | fork (t child : Nat)
  | exec (t : Nat)
  | exit (t : Nat)

def step (s : State) : Label → Option State
  | .trap t mem => some (machPortsInitTask s t mem)
  | .semaphoreCreate t memSem memTab => machSemaphoreCreate s t memSem memTab
  | .semaphoreDestroy t name => machSemaphoreDestroy s t name
  | .timerCreate t mem => mkTimerCreate s t mem
  | .timerDestroy t name => mkTimerDestroy s t name
  | .fork t child => forkPorts s t child
  | .exec t => execPorts s t
  | .exit t => some (exitPorts s t)

/-- Any tasks to start with, none with a port table. -/
def portsMachine : Machine State Label where
  init s := (∀ t task, s.tasks t = some task → task.machPorts = none) ∧ (∀ a, s.tables a = none) ∧ s.freed = [] ∧
    ∀ t name, s.given t name = none
  step := step

/-! ## The law -/

/-- The slot stands for what the name was given out for. -/
def Denotes (slot : Slot) : Given → Prop
  | .semaphore id => slot.type = .semaphore ∧ slot.object = .semaphore id
  | .timer => slot.type = .task ∧ slot.object = .null

/-- The slots 1, 2 and 3 are the task, its thread and the host. -/
structure SelfNames (t : Nat) (slots : Nat → Slot) : Prop where
  task : slots MACH_PORT_NAME_TASK_SELF = ⟨.task, .task t, 1⟩
  thread : slots MACH_PORT_NAME_THREAD_SELF = ⟨.thread, .task t, 1⟩
  host : slots MACH_PORT_NAME_HOST = ⟨.host, .null, 1⟩

/-- The task has the table at `a`. -/
def Owns (s : State) (t a : Nat) : Prop := ∃ task, s.tasks t = some task ∧ task.machPorts = some a

/-- A slot of an allocated table stands for the semaphore. -/
def SemAt (s : State) (a name id : Nat) : Prop :=
  ∃ slots, s.tables a = some slots ∧ (slots name).type = .semaphore ∧ (slots name).object = .semaphore id

/-- **What the ports owe the tasks.** -/
structure PortsLaw (s : State) : Prop where
  self : ∀ t a, Owns s t a → ∃ slots, s.tables a = some slots ∧ SelfNames t slots
  names : ∀ t name g, s.given t name = some g → ∃ a slots, Owns s t a ∧ s.tables a = some slots ∧ Denotes (slots name) g
  freed : s.freed.Nodup ∧ ∀ id ∈ s.freed, ∀ a name, ¬SemAt s a name id
  alone : ∀ t t' a, Owns s t a → Owns s t' a → t = t'

/-- **The steps that keep it**: a timer's destroy call for a name that is a timer's or not in use, and a fork of a task
without a table. -/
def StepOk (s : State) : Label → Prop
  | .timerDestroy t name => ∀ a slots slot, slotsOf s t = .table a slots → machPortLookup slots name = some slot →
      s.given t name = some .timer
  | .fork t _ => ∀ task, s.tasks t = some task → task.machPorts = none
  | _ => True

/-! ## The invariant -/

/-- The law, and what it rests on: every name in use was given out, only such names were, and a semaphore has one name. -/
structure Inv (s : State) : Prop extends PortsLaw s where
  inUse : ∀ t a slots name, Owns s t a → s.tables a = some slots → MACH_PORT_NAME_FIRST_FREE ≤ name →
    name < MACH_PORT_MAX_SLOTS → (slots name).type ≠ .none → ∃ g, s.given t name = some g
  range : ∀ t name g, s.given t name = some g → MACH_PORT_NAME_FIRST_FREE ≤ name ∧ name < MACH_PORT_MAX_SLOTS
  fresh : ∀ a, s.nextTable ≤ a → s.tables a = none
  sems : ∀ a name id, SemAt s a name id → id < s.nextSem
  once : ∀ a b name name' id, SemAt s a name id → SemAt s b name' id → a = b ∧ name = name'
  freedLt : ∀ id ∈ s.freed, id < s.nextSem

variable {s : State} {t t' a b name name' id : Nat} {slots : Nat → Slot} {slot : Slot} {task : Task} {g : Given}

theorem owns_iff : Owns s t a ↔ (s.tasks t).bind Task.machPorts = some a := by
  unfold Owns
  cases s.tasks t <;> simp

theorem owns_unique (h : Owns s t a) (h' : Owns s t b) : a = b := by
  rw [owns_iff] at h h'
  exact Option.some.inj (h.symm.trans h')

/-- Who owns what when one task changes. -/
theorem owns_update {s' : State} {new : Option Task} (h : s'.tasks = Function.update s.tasks t new) :
    Owns s' t' a ↔ if t' = t then new.bind Task.machPorts = some a else Owns s t' a := by
  rw [owns_iff, owns_iff, h]
  by_cases ht : t' = t
  · rw [if_pos ht, ht, Function.update_self]
  · rw [if_neg ht, Function.update_of_ne ht]

theorem slotsOf_table (h : slotsOf s t = .table a slots) : Owns s t a ∧ s.tables a = some slots := by
  unfold slotsOf at h
  rw [owns_iff]
  cases htask : s.tasks t with
  | none =>
    rw [htask] at h
    cases h
  | some task =>
    rw [htask] at h
    cases hports : task.machPorts with
    | none =>
      simp only [hports] at h
      cases h
    | some a' =>
      simp only [hports] at h
      cases htab : s.tables a' with
      | none =>
        simp only [htab] at h
        cases h
      | some slots' =>
        simp only [htab] at h
        cases h
        exact ⟨hports, htab⟩

theorem freeSlot_spec (h : freeSlot slots = some name) :
    MACH_PORT_NAME_FIRST_FREE ≤ name ∧ name < MACH_PORT_MAX_SLOTS ∧ (slots name).type = .none := by
  have hmem := List.mem_range'_1.1 (List.mem_of_find?_eq_some h)
  have htype := List.find?_some h
  have hmax : MACH_PORT_NAME_FIRST_FREE + (MACH_PORT_MAX_SLOTS - MACH_PORT_NAME_FIRST_FREE) = MACH_PORT_MAX_SLOTS := rfl
  rw [hmax] at hmem
  exact ⟨hmem.1, hmem.2, of_decide_eq_true htype⟩

theorem machPortLookup_spec (h : machPortLookup slots name = some slot) :
    name ≠ 0 ∧ name < MACH_PORT_MAX_SLOTS ∧ slots name = slot ∧ slot.type ≠ .none := by
  unfold machPortLookup at h
  by_cases hr : name = 0 ∨ MACH_PORT_MAX_SLOTS ≤ name
  · rw [if_pos hr] at h
    cases h
  · rw [if_neg hr] at h
    by_cases ht : (slots name).type = .none
    · rw [if_pos ht] at h
      cases h
    · rw [if_neg ht] at h
      cases h
      exact ⟨fun h0 => hr (.inl h0), Nat.lt_of_not_le fun hle => hr (.inr hle), rfl, ht⟩

/-- A name below the first free one is the task, its thread or the host. -/
theorem SelfNames.cases (h : SelfNames t slots) (h0 : name ≠ 0) (hlt : name < MACH_PORT_NAME_FIRST_FREE) :
    (slots name).type ≠ .semaphore ∧ (slots name).type ≠ .none := by
  have hname : name = MACH_PORT_NAME_TASK_SELF ∨ name = MACH_PORT_NAME_THREAD_SELF ∨ name = MACH_PORT_NAME_HOST := by
    unfold MACH_PORT_NAME_FIRST_FREE at hlt
    unfold MACH_PORT_NAME_TASK_SELF MACH_PORT_NAME_THREAD_SELF MACH_PORT_NAME_HOST
    omega
  rcases hname with rfl | rfl | rfl
  · rw [h.task]
    exact ⟨PortType.noConfusion, PortType.noConfusion⟩
  · rw [h.thread]
    exact ⟨PortType.noConfusion, PortType.noConfusion⟩
  · rw [h.host]
    exact ⟨PortType.noConfusion, PortType.noConfusion⟩

theorem SelfNames.update (h : SelfNames t slots) (hname : MACH_PORT_NAME_FIRST_FREE ≤ name) (slot : Slot) :
    SelfNames t (Function.update slots name slot) := by
  have hne : ∀ n, n < MACH_PORT_NAME_FIRST_FREE → n ≠ name := fun n hn => by omega
  refine ⟨?_, ?_, ?_⟩
  · rw [Function.update_of_ne (hne _ (by decide)), h.task]
  · rw [Function.update_of_ne (hne _ (by decide)), h.thread]
  · rw [Function.update_of_ne (hne _ (by decide)), h.host]

theorem selfNames_first (t : Nat) : SelfNames t (firstSlots t) := ⟨rfl, rfl, rfl⟩

/-- Behind the three names a new table is empty. -/
theorem firstSlots_free (h : MACH_PORT_NAME_FIRST_FREE ≤ name) : firstSlots t name = Slot.zero := by
  have hne : ∀ n, n < MACH_PORT_NAME_FIRST_FREE → name ≠ n := fun n hn => by omega
  unfold firstSlots
  rw [Function.update_of_ne (hne _ (by decide)), Function.update_of_ne (hne _ (by decide)),
    Function.update_of_ne (hne _ (by decide))]

theorem firstSlots_type : (firstSlots t name).type ≠ .semaphore := by
  by_cases hn : MACH_PORT_NAME_FIRST_FREE ≤ name
  · rw [firstSlots_free hn]
    decide
  · by_cases h0 : name = 0
    · have hz : firstSlots t 0 = Slot.zero := rfl
      rw [h0, hz]
      decide
    · exact ((selfNames_first t).cases h0 (Nat.lt_of_not_le hn)).1

/-- **A slot is filled or emptied**, and what the name was given out for with it. -/
theorem Inv.put (h : Inv s) (ho : Owns s t a) (hs : s.tables a = some slots)
    (hname : MACH_PORT_NAME_FIRST_FREE ≤ name ∧ name < MACH_PORT_MAX_SLOTS) {g : Option Given}
    (hd : ∀ x, g = some x → Denotes slot x) (hg : slot.type ≠ .none → ∃ x, g = some x)
    (hsem : ∀ id, slot.type = .semaphore → slot.object = .semaphore id →
      id < s.nextSem ∧ id ∉ s.freed ∧ ∀ b m, ¬SemAt s b m id) :
    Inv (give (setSlot s a slots name slot) t name g) := by
  have hgive : ∀ t' name', (give (setSlot s a slots name slot) t name g).given t' name' =
      if t' = t ∧ name' = name then g else s.given t' name' := by
    intro t' name'
    change Function.update s.given t (Function.update (s.given t) name g) t' name' = _
    by_cases ht : t' = t
    · subst ht
      rw [Function.update_self]
      by_cases hn : name' = name
      · rw [hn, Function.update_self, if_pos ⟨rfl, rfl⟩]
      · rw [Function.update_of_ne hn, if_neg fun hc => hn hc.2]
    · rw [Function.update_of_ne ht, if_neg fun hc => ht hc.1]
  have htab : ∀ b, (give (setSlot s a slots name slot) t name g).tables b =
      if b = a then some (Function.update slots name slot) else s.tables b := by
    intro b
    change Function.update s.tables a _ b = _
    by_cases hb : b = a
    · rw [if_pos hb, hb, Function.update_self]
    · rw [if_neg hb, Function.update_of_ne hb]
  have hown : ∀ t' b, Owns (give (setSlot s a slots name slot) t name g) t' b ↔ Owns s t' b := fun _ _ => Iff.rfl
  have hat : ∀ b m id, SemAt (give (setSlot s a slots name slot) t name g) b m id →
      (b = a ∧ m = name ∧ slot.type = .semaphore ∧ slot.object = .semaphore id) ∨ SemAt s b m id := by
    rintro b m id ⟨slots', htab', htype, hobj⟩
    rw [htab] at htab'
    by_cases hb : b = a
    · rw [if_pos hb] at htab'
      cases htab'
      by_cases hm : m = name
      · rw [hm, Function.update_self] at htype hobj
        exact .inl ⟨hb, hm, htype, hobj⟩
      · rw [Function.update_of_ne hm] at htype hobj
        exact .inr ⟨slots, hb ▸ hs, htype, hobj⟩
    · rw [if_neg hb] at htab'
      exact .inr ⟨slots', htab', htype, hobj⟩
  refine { self := ?_, names := ?_, freed := ⟨h.freed.1, ?_⟩, alone := h.alone, inUse := ?_, range := ?_, fresh := ?_,
           sems := ?_, once := ?_, freedLt := h.freedLt }
  · intro t' b ho'
    obtain ⟨slots', hs', hself⟩ := h.self t' b ho'
    rw [htab]
    by_cases hb : b = a
    · subst hb
      rw [hs] at hs'
      cases hs'
      exact ⟨_, if_pos rfl, hself.update hname.1 slot⟩
    · exact ⟨slots', by rw [if_neg hb, hs'], hself⟩
  · intro t' name' x hx
    rw [hgive] at hx
    by_cases hc : t' = t ∧ name' = name
    · rw [if_pos hc] at hx
      obtain ⟨rfl, rfl⟩ := hc
      exact ⟨a, _, ho, by rw [htab, if_pos rfl], by rw [Function.update_self]; exact hd x hx⟩
    · rw [if_neg hc] at hx
      obtain ⟨b, slots', ho', hs', hden⟩ := h.names t' name' x hx
      by_cases hb : b = a
      · subst hb
        rw [hs] at hs'
        cases hs'
        have ht := h.alone t' t b ho' ho
        have hn : name' ≠ name := fun hn => hc ⟨ht, hn⟩
        exact ⟨b, _, ho', by rw [htab, if_pos rfl], by rw [Function.update_of_ne hn]; exact hden⟩
      · exact ⟨b, slots', ho', by rw [htab, if_neg hb, hs'], hden⟩
  · intro id hid b m hsemAt
    rcases hat b m id hsemAt with ⟨-, -, htype, hobj⟩ | hold
    · exact (hsem id htype hobj).2.1 hid
    · exact h.freed.2 id hid b m hold
  · intro t' b slots' name' ho' hs' hlo hhi huse
    rw [htab] at hs'
    rw [hgive]
    by_cases hb : b = a
    · subst hb
      rw [if_pos rfl] at hs'
      cases hs'
      have ht := h.alone t' t b ho' ho
      by_cases hn : name' = name
      · rw [hn, Function.update_self] at huse
        rw [if_pos ⟨ht, hn⟩]
        exact hg huse
      · rw [Function.update_of_ne hn] at huse
        rw [if_neg fun hc => hn hc.2]
        exact h.inUse t' b slots name' ho' hs hlo hhi huse
    · rw [if_neg hb] at hs'
      have ht : t' ≠ t := by
        rintro rfl
        exact hb (owns_unique ((hown _ _).1 ho') ho)
      rw [if_neg fun hc => ht hc.1]
      exact h.inUse t' b slots' name' ho' hs' hlo hhi huse
  · intro t' name' x hx
    rw [hgive] at hx
    by_cases hc : t' = t ∧ name' = name
    · rw [hc.2]
      exact hname
    · rw [if_neg hc] at hx
      exact h.range t' name' x hx
  · intro b hb
    have hne : b ≠ a := by
      rintro rfl
      rw [h.fresh b hb] at hs
      cases hs
    rw [htab, if_neg hne]
    exact h.fresh b hb
  · intro b m id hsemAt
    rcases hat b m id hsemAt with ⟨-, -, htype, hobj⟩ | hold
    · exact (hsem id htype hobj).1
    · exact h.sems b m id hold
  · intro b b' m m' id h1 h2
    rcases hat b m id h1 with ⟨hb, hm, htype, hobj⟩ | hold
    · rcases hat b' m' id h2 with ⟨hb', hm', -, -⟩ | hold'
      · exact ⟨hb.trans hb'.symm, hm.trans hm'.symm⟩
      · exact absurd hold' ((hsem id htype hobj).2.2 b' m')
    · rcases hat b' m' id h2 with ⟨-, -, htype, hobj⟩ | hold'
      · exact absurd hold ((hsem id htype hobj).2.2 b m)
      · exact h.once b b' m m' id hold hold'

theorem Inv.free (h : Inv s) (hlt : id < s.nextSem) (hnot : id ∉ s.freed) (hno : ∀ a name, ¬SemAt s a name id) :
    Inv (kfreeSem s id) where
  self := h.self
  names := h.names
  freed := ⟨List.nodup_cons.2 ⟨hnot, h.freed.1⟩, fun x hx a name => by
    rcases List.mem_cons.1 hx with rfl | hx
    · exact hno a name
    · exact h.freed.2 x hx a name⟩
  alone := h.alone
  inUse := h.inUse
  range := h.range
  fresh := h.fresh
  sems := h.sems
  once := h.once
  freedLt x hx := by
    rcases List.mem_cons.1 hx with rfl | hx
    · exact hlt
    · exact h.freedLt x hx

/-- A new semaphore has no name yet. -/
theorem Inv.bump (h : Inv s) : Inv { s with nextSem := s.nextSem + 1 } where
  self := h.self
  names := h.names
  freed := h.freed
  alone := h.alone
  inUse := h.inUse
  range := h.range
  fresh := h.fresh
  sems a name id hs := Nat.lt_succ_of_lt (h.sems a name id hs)
  once := h.once
  freedLt x hx := Nat.lt_succ_of_lt (h.freedLt x hx)

/-- A task without a table is given none of the names. -/
theorem Inv.given_none (h : Inv s) (hno : ∀ a, ¬Owns s t a) (name : Nat) : s.given t name = none := by
  cases hg : s.given t name with
  | none => rfl
  | some g =>
    obtain ⟨a, -, ho, -⟩ := h.names t name g hg
    exact absurd ho (hno a)

theorem Inv.initTask (h : Inv s) (t : Nat) (mem : Bool) : Inv (machPortsInitTask s t mem) := by
  unfold machPortsInitTask
  cases htask : s.tasks t with
  | none => exact h
  | some task =>
    simp only
    by_cases hskip : (task.machPorts.isSome || !mem) = true
    · rw [if_pos hskip]
      exact h
    rw [if_neg hskip]
    have hnone : task.machPorts = none := by
      cases hp : task.machPorts with
      | none => rfl
      | some a =>
        rw [hp] at hskip
        exact absurd rfl hskip
    have hno : ∀ a, ¬Owns s t a := fun a ho => by
      rw [owns_iff, htask, Option.bind_some, hnone] at ho
      cases ho
    have hfree : s.tables s.nextTable = none := h.fresh _ (Nat.le_refl _)
    generalize hs' : ({ s with
      tables := Function.update s.tables s.nextTable (some (firstSlots t))
      nextTable := s.nextTable + 1
      tasks := Function.update s.tasks t
        (some ⟨some s.nextTable, MACH_PORT_NAME_TASK_SELF, MACH_PORT_NAME_THREAD_SELF⟩) } : State) = s'
    have hown : ∀ t' a, Owns s' t' a ↔ if t' = t then s.nextTable = a else Owns s t' a := fun t' a => by
      rw [owns_update (s := s) (t := t) (by rw [← hs'])]
      by_cases ht : t' = t
      · rw [if_pos ht, if_pos ht]
        exact ⟨fun heq => Option.some.inj heq, congrArg some⟩
      · rw [if_neg ht, if_neg ht]
    have htab : ∀ a, s'.tables a = if a = s.nextTable then some (firstSlots t) else s.tables a := fun a => by
      rw [← hs']
      by_cases ha : a = s.nextTable
      · rw [if_pos ha, ha]
        exact Function.update_self _ _ _
      · rw [if_neg ha]
        exact Function.update_of_ne ha _ _
    have hgiven : s'.given = s.given := by rw [← hs']
    have hat : ∀ a m id, SemAt s' a m id → SemAt s a m id := by
      rintro a m id ⟨slots, hs, htype, hobj⟩
      rw [htab] at hs
      by_cases ha : a = s.nextTable
      · rw [if_pos ha] at hs
        cases hs
        exact absurd htype firstSlots_type
      · rw [if_neg ha] at hs
        exact ⟨slots, hs, htype, hobj⟩
    -- a table in use is another one than the new one
    have hold : ∀ t' a, Owns s t' a → a ≠ s.nextTable := fun t' a ho heq => by
      obtain ⟨slots, hs, -⟩ := h.self t' a ho
      rw [heq, hfree] at hs
      cases hs
    have hfreed : s'.freed = s.freed := by rw [← hs']
    have hsem : s'.nextSem = s.nextSem := by rw [← hs']
    refine { self := ?_, names := ?_, freed := ?_, alone := ?_, inUse := ?_, range := ?_, fresh := ?_, sems := ?_,
             once := ?_, freedLt := ?_ }
    · intro t' a ho
      rw [hown] at ho
      rw [htab]
      by_cases ht : t' = t
      · rw [if_pos ht] at ho
        exact ⟨_, if_pos ho.symm, ht ▸ selfNames_first t⟩
      · rw [if_neg ht] at ho
        rw [if_neg (hold t' a ho)]
        exact h.self t' a ho
    · intro t' name g hg
      rw [hgiven] at hg
      obtain ⟨a, slots, ho, hs, hd⟩ := h.names t' name g hg
      have ht : t' ≠ t := fun heq => hno a (heq ▸ ho)
      exact ⟨a, slots, (hown t' a).2 (by rw [if_neg ht]; exact ho), by rw [htab, if_neg (hold t' a ho), hs], hd⟩
    · rw [hfreed]
      exact ⟨h.freed.1, fun id hid a name hs => h.freed.2 id hid a name (hat a name id hs)⟩
    · intro t₁ t₂ a h1 h2
      rw [hown] at h1 h2
      by_cases ht1 : t₁ = t
      · rw [if_pos ht1] at h1
        by_cases ht2 : t₂ = t
        · rw [ht1, ht2]
        · rw [if_neg ht2] at h2
          exact absurd h1.symm (hold t₂ a h2)
      · rw [if_neg ht1] at h1
        by_cases ht2 : t₂ = t
        · rw [if_pos ht2] at h2
          exact absurd h2.symm (hold t₁ a h1)
        · rw [if_neg ht2] at h2
          exact h.alone t₁ t₂ a h1 h2
    · intro t' a slots name ho hs hlo hhi huse
      rw [hown] at ho
      rw [htab] at hs
      rw [hgiven]
      by_cases ht : t' = t
      · rw [if_pos ht] at ho
        rw [if_pos ho.symm] at hs
        cases hs
        rw [firstSlots_free hlo] at huse
        exact absurd rfl huse
      · rw [if_neg ht] at ho
        rw [if_neg (hold t' a ho)] at hs
        exact h.inUse t' a slots name ho hs hlo hhi huse
    · intro t' name g hg
      rw [hgiven] at hg
      exact h.range t' name g hg
    · intro a ha
      have hlt : s.nextTable + 1 ≤ a := by
        rw [← hs'] at ha
        exact ha
      rw [htab, if_neg (by omega)]
      exact h.fresh a (by omega)
    · intro a m id hs
      rw [hsem]
      exact h.sems a m id (hat a m id hs)
    · intro a b m m' id h1 h2
      exact h.once a b m m' id (hat a m id h1) (hat b m' id h2)
    · intro id hid
      rw [hfreed] at hid
      rw [hsem]
      exact h.freedLt id hid

theorem initTask_keeps (s : State) (t : Nat) (mem : Bool) :
    (machPortsInitTask s t mem).nextSem = s.nextSem ∧ (machPortsInitTask s t mem).freed = s.freed := by
  unfold machPortsInitTask
  cases s.tasks t with
  | none => exact ⟨rfl, rfl⟩
  | some task =>
    simp only
    split <;> exact ⟨rfl, rfl⟩

/-- A new table names no semaphore. -/
theorem semAt_initTask {mem : Bool} (hs : SemAt (machPortsInitTask s t mem) a name id) : SemAt s a name id := by
  unfold machPortsInitTask at hs
  cases htask : s.tasks t with
  | none =>
    rw [htask] at hs
    exact hs
  | some task =>
    rw [htask] at hs
    simp only at hs
    by_cases hskip : (task.machPorts.isSome || !mem) = true
    · rw [if_pos hskip] at hs
      exact hs
    rw [if_neg hskip] at hs
    obtain ⟨slots, htab, htype, hobj⟩ := hs
    by_cases ha : a = s.nextTable
    · have heq : some (firstSlots t) = some slots := by
        rw [← htab, ha]
        exact (Function.update_self s.nextTable (some (firstSlots t)) s.tables).symm
      cases heq
      exact absurd htype firstSlots_type
    · have heq : s.tables a = some slots := by
        rw [← htab]
        exact (Function.update_of_ne ha (some (firstSlots t)) s.tables).symm
      exact ⟨slots, heq, htype, hobj⟩

/-! ## The steps -/

theorem Inv.semaphoreCreate (h : Inv s) {memSem memTab : Bool} {s' : State}
    (hstep : machSemaphoreCreate s t memSem memTab = some s') : Inv s' := by
  unfold machSemaphoreCreate at hstep
  by_cases hmem : memSem = false
  · rw [if_pos hmem] at hstep
    cases hstep
    exact h
  rw [if_neg hmem] at hstep
  simp only at hstep
  have hi := h.bump.initTask t memTab
  obtain ⟨hnext, hfreed⟩ := initTask_keeps { s with nextSem := s.nextSem + 1 } t memTab
  have hno : ∀ a name, ¬SemAt (machPortsInitTask { s with nextSem := s.nextSem + 1 } t memTab) a name s.nextSem :=
    fun a name hs => by
      have hold : SemAt s a name s.nextSem := semAt_initTask (s := { s with nextSem := s.nextSem + 1 }) hs
      have hlt := h.sems a name s.nextSem hold
      omega
  generalize machPortsInitTask { s with nextSem := s.nextSem + 1 } t memTab = s₁ at hstep hi hnext hfreed hno
  have hlt : s.nextSem < s₁.nextSem := by
    rw [hnext]
    exact Nat.lt_succ_self _
  have hnot : s.nextSem ∉ s₁.freed := fun hmem' => by
    rw [hfreed] at hmem'
    have := h.freedLt _ hmem'
    omega
  cases hfound : slotsOf s₁ t with
  | dangling =>
    rw [hfound] at hstep
    cases hstep
  | null =>
    rw [hfound] at hstep
    cases hstep
    exact hi.free hlt hnot hno
  | table a slots =>
    rw [hfound] at hstep
    simp only [machPortNewSlot] at hstep
    obtain ⟨ho, htab⟩ := slotsOf_table hfound
    cases hslot : freeSlot slots with
    | none =>
      rw [hslot] at hstep
      cases hstep
      exact hi.free hlt hnot hno
    | some name =>
      rw [hslot] at hstep
      cases hstep
      obtain ⟨hlo, hhi, -⟩ := freeSlot_spec hslot
      refine hi.put ho htab ⟨hlo, hhi⟩ ?_ (fun _ => ⟨_, rfl⟩) ?_
      · intro x hx
        cases hx
        exact ⟨rfl, rfl⟩
      · intro id _ hobj
        cases hobj
        exact ⟨hlt, hnot, hno⟩

/-- A name in use behind the first three was given out for what it stands for. -/
theorem Inv.given_of_lookup (h : Inv s) (hfound : slotsOf s t = .table a slots) (hlook : machPortLookup slots name = some slot)
    (hlo : MACH_PORT_NAME_FIRST_FREE ≤ name) : ∃ g, s.given t name = some g ∧ Denotes slot g := by
  obtain ⟨ho, htab⟩ := slotsOf_table hfound
  obtain ⟨-, hhi, rfl, huse⟩ := machPortLookup_spec hlook
  obtain ⟨g, hg⟩ := h.inUse t a slots name ho htab hlo hhi huse
  obtain ⟨b, slots', ho', htab', hd⟩ := h.names t name g hg
  cases owns_unique ho ho'
  rw [htab] at htab'
  cases htab'
  exact ⟨g, hg, hd⟩

theorem Inv.selfNames (h : Inv s) (hfound : slotsOf s t = .table a slots) : SelfNames t slots := by
  obtain ⟨ho, htab⟩ := slotsOf_table hfound
  obtain ⟨slots', htab', hself⟩ := h.self t a ho
  rw [htab] at htab'
  cases htab'
  exact hself

theorem Inv.semaphoreDestroy (h : Inv s) {s' : State} (hstep : machSemaphoreDestroy s t name = some s') : Inv s' := by
  unfold machSemaphoreDestroy at hstep
  cases hfound : slotsOf s t with
  | dangling =>
    rw [hfound] at hstep
    cases hstep
  | null =>
    rw [hfound] at hstep
    cases hstep
    exact h
  | table a slots =>
    rw [hfound] at hstep
    simp only at hstep
    cases hlook : machPortLookup slots name with
    | none =>
      rw [hlook] at hstep
      cases hstep
      exact h
    | some slot =>
      rw [hlook] at hstep
      simp only at hstep
      by_cases htype : slot.type ≠ .semaphore
      · rw [if_pos htype] at hstep
        cases hstep
        exact h
      rw [if_neg htype] at hstep
      obtain ⟨ho, htab⟩ := slotsOf_table hfound
      obtain ⟨h0, hhi, hslot, -⟩ := machPortLookup_spec hlook
      have hlo : MACH_PORT_NAME_FIRST_FREE ≤ name := by
        refine Nat.le_of_not_lt fun hlt => ?_
        have := ((h.selfNames hfound).cases h0 hlt).1
        rw [hslot] at this
        exact htype this
      obtain ⟨g, hg, hd⟩ := h.given_of_lookup hfound hlook hlo
      cases g with
      | timer =>
        rw [hd.1] at htype
        exact absurd PortType.noConfusion htype
      | semaphore id =>
        have hat : SemAt s a name id := ⟨slots, htab, by rw [hslot]; exact hd.1, by rw [hslot]; exact hd.2⟩
        have hput : Inv (give (setSlot s a slots name ⟨.none, .null, 0⟩) t name none) :=
          h.put ho htab ⟨hlo, hhi⟩ (fun x hx => by cases hx) (fun hne => absurd rfl hne) (fun id htype _ => by cases htype)
        rw [hd.2] at hstep
        cases hstep
        have hgiven : (takeBack (setSlot (kfreeSem s id) a slots name ⟨.none, .null, 0⟩) t name Given.isSemaphore) =
            kfreeSem (give (setSlot s a slots name ⟨.none, .null, 0⟩) t name none) id := by
          have hg' : (setSlot (kfreeSem s id) a slots name ⟨.none, .null, 0⟩).given t name = some (.semaphore id) := hg
          unfold takeBack
          rw [hg']
          rfl
        change Inv (takeBack (setSlot (kfreeSem s id) a slots name ⟨.none, .null, 0⟩) t name Given.isSemaphore)
        rw [hgiven]
        refine hput.free (h.sems a name id hat) (fun hmem => h.freed.2 id hmem a name hat) ?_
        -- the one name of the semaphore is the one that is emptied
        rintro b m ⟨slots', htab', htype', hobj'⟩
        by_cases hb : b = a
        · have heq : some (Function.update slots name ⟨.none, .null, 0⟩) = some slots' := by
            rw [← htab', hb]
            exact (Function.update_self a (some (Function.update slots name ⟨.none, .null, 0⟩)) s.tables).symm
          cases heq
          by_cases hm : m = name
          · rw [hm, Function.update_self] at htype'
            cases htype'
          · rw [Function.update_of_ne hm] at htype' hobj'
            exact hm (h.once a a m name id ⟨slots, htab, htype', hobj'⟩ hat).2
        · have heq : s.tables b = some slots' := by
            rw [← htab']
            exact (Function.update_of_ne hb (some (Function.update slots name ⟨.none, .null, 0⟩)) s.tables).symm
          exact hb (h.once b a m name id ⟨slots', heq, htype', hobj'⟩ hat).1

theorem Inv.timerCreate (h : Inv s) {mem : Bool} {s' : State} (hstep : mkTimerCreate s t mem = some s') : Inv s' := by
  unfold mkTimerCreate at hstep
  simp only at hstep
  have hi := h.initTask t mem
  generalize machPortsInitTask s t mem = s₁ at hstep hi
  cases hfound : slotsOf s₁ t with
  | dangling =>
    rw [hfound] at hstep
    cases hstep
  | null =>
    rw [hfound] at hstep
    cases hstep
    exact hi
  | table a slots =>
    rw [hfound] at hstep
    simp only [machPortNewSlot] at hstep
    obtain ⟨ho, htab⟩ := slotsOf_table hfound
    cases hslot : freeSlot slots with
    | none =>
      rw [hslot] at hstep
      cases hstep
      exact hi
    | some name =>
      rw [hslot] at hstep
      cases hstep
      obtain ⟨hlo, hhi, -⟩ := freeSlot_spec hslot
      refine hi.put ho htab ⟨hlo, hhi⟩ ?_ (fun _ => ⟨_, rfl⟩) (fun id htype _ => by cases htype)
      intro x hx
      cases hx
      exact ⟨rfl, rfl⟩

theorem Inv.timerDestroy (h : Inv s) {s' : State} (hok : StepOk s (.timerDestroy t name))
    (hstep : mkTimerDestroy s t name = some s') : Inv s' := by
  unfold mkTimerDestroy at hstep
  cases hfound : slotsOf s t with
  | dangling =>
    rw [hfound] at hstep
    cases hstep
  | null =>
    rw [hfound] at hstep
    cases hstep
    exact h
  | table a slots =>
    rw [hfound] at hstep
    simp only at hstep
    cases hlook : machPortLookup slots name with
    | none =>
      rw [hlook] at hstep
      cases hstep
      exact h
    | some slot =>
      rw [hlook] at hstep
      cases hstep
      have hg := hok a slots slot hfound hlook
      obtain ⟨ho, htab⟩ := slotsOf_table hfound
      have hgiven : takeBack (setSlot s a slots name { slot with type := .none }) t name Given.isTimer =
          give (setSlot s a slots name { slot with type := .none }) t name none := by
        have hg' : (setSlot s a slots name { slot with type := .none }).given t name = some .timer := hg
        unfold takeBack
        rw [hg']
        rfl
      rw [hgiven]
      exact h.put ho htab (h.range t name _ hg) (fun x hx => by cases hx) (fun hne => absurd rfl hne)
        (fun id htype _ => by cases htype)

/-- A task loses its table and its names; the table stays where it is or is freed. -/
theorem Inv.drop (h : Inv s) {s' : State} {new : Option Task} (htasks : s'.tasks = Function.update s.tasks t new)
    (hnew : new.bind Task.machPorts = none) (hgiven : s'.given = Function.update s.given t fun _ => none)
    (htables : ∀ a, s'.tables a = s.tables a ∨ s'.tables a = none ∧ Owns s t a)
    (hkeep : s'.nextTable = s.nextTable ∧ s'.nextSem = s.nextSem ∧ s'.freed = s.freed) : Inv s' := by
  obtain ⟨hnext, hsem, hfreed⟩ := hkeep
  have hown : ∀ t' a, Owns s' t' a → t' ≠ t ∧ Owns s t' a := fun t' a ho => by
    rw [owns_update htasks] at ho
    by_cases ht : t' = t
    · rw [if_pos ht, hnew] at ho
      cases ho
    · rw [if_neg ht] at ho
      exact ⟨ht, ho⟩
  have hown' : ∀ t' a, t' ≠ t → Owns s t' a → Owns s' t' a := fun t' a ht ho => by
    rw [owns_update htasks, if_neg ht]
    exact ho
  have hother : ∀ t' a, t' ≠ t → Owns s t' a → s'.tables a = s.tables a := fun t' a ht ho =>
    (htables a).resolve_right fun hc => ht (h.alone t' t a ho hc.2)
  have hsome : ∀ a slots, s'.tables a = some slots → s.tables a = some slots := fun a slots hs => by
    rcases htables a with heq | ⟨heq, -⟩
    · rw [← heq, hs]
    · rw [hs] at heq
      cases heq
  have hat : ∀ a m id, SemAt s' a m id → SemAt s a m id := fun a m id ⟨slots, hs, hrest⟩ => ⟨slots, hsome a slots hs, hrest⟩
  have hg' : ∀ t' name g, s'.given t' name = some g → t' ≠ t ∧ s.given t' name = some g := fun t' name g hg => by
    rw [hgiven] at hg
    by_cases ht : t' = t
    · rw [ht, Function.update_self] at hg
      cases hg
    · rw [Function.update_of_ne ht] at hg
      exact ⟨ht, hg⟩
  refine { self := ?_, names := ?_, freed := ?_, alone := ?_, inUse := ?_, range := ?_, fresh := ?_, sems := ?_,
           once := ?_, freedLt := ?_ }
  · intro t' a ho
    obtain ⟨ht, ho⟩ := hown t' a ho
    rw [hother t' a ht ho]
    exact h.self t' a ho
  · intro t' name g hg
    obtain ⟨ht, hg⟩ := hg' t' name g hg
    obtain ⟨a, slots, ho, hs, hd⟩ := h.names t' name g hg
    exact ⟨a, slots, hown' t' a ht ho, by rw [hother t' a ht ho, hs], hd⟩
  · rw [hfreed]
    exact ⟨h.freed.1, fun id hid a name hs => h.freed.2 id hid a name (hat a name id hs)⟩
  · exact fun t₁ t₂ a h1 h2 => h.alone t₁ t₂ a (hown t₁ a h1).2 (hown t₂ a h2).2
  · intro t' a slots name ho hs hlo hhi huse
    obtain ⟨ht, ho⟩ := hown t' a ho
    rw [hother t' a ht ho] at hs
    rw [hgiven, Function.update_of_ne ht]
    exact h.inUse t' a slots name ho hs hlo hhi huse
  · exact fun t' name g hg => h.range t' name g (hg' t' name g hg).2
  · intro a ha
    rw [hnext] at ha
    cases htab : s'.tables a with
    | none => rfl
    | some slots =>
      have := hsome a slots htab
      rw [h.fresh a ha] at this
      cases this
  · intro a m id hs
    rw [hsem]
    exact h.sems a m id (hat a m id hs)
  · exact fun a b m m' id h1 h2 => h.once a b m m' id (hat a m id h1) (hat b m' id h2)
  · intro id hid
    rw [hfreed] at hid
    rw [hsem]
    exact h.freedLt id hid

theorem Inv.exec (h : Inv s) {s' : State} (hstep : execPorts s t = some s') : Inv s' := by
  unfold execPorts at hstep
  cases htask : s.tasks t with
  | none =>
    rw [htask] at hstep
    cases hstep
  | some task =>
    rw [htask] at hstep
    simp only at hstep
    cases hports : task.machPorts with
    | none =>
      rw [hports] at hstep
      cases hstep
      exact h.drop rfl rfl rfl (fun _ => .inl rfl) ⟨rfl, rfl, rfl⟩
    | some a =>
      rw [hports] at hstep
      simp only at hstep
      by_cases hnone : (s.tables a).isNone = true
      · rw [if_pos hnone] at hstep
        cases hstep
      rw [if_neg hnone] at hstep
      cases hstep
      refine h.drop rfl rfl rfl (fun b => ?_) ⟨rfl, rfl, rfl⟩
      by_cases hb : b = a
      · exact .inr ⟨by rw [hb]; exact Function.update_self _ _ _, task, htask, hb ▸ hports⟩
      · exact .inl (Function.update_of_ne hb _ _)

theorem Inv.exit (h : Inv s) (t : Nat) : Inv (exitPorts s t) :=
  h.drop rfl rfl rfl (fun _ => .inl rfl) ⟨rfl, rfl, rfl⟩

theorem Inv.fork (h : Inv s) {child : Nat} {s' : State} (hok : StepOk s (.fork t child))
    (hstep : forkPorts s t child = some s') : Inv s' := by
  unfold forkPorts at hstep
  cases htask : s.tasks t with
  | none =>
    rw [htask] at hstep
    cases hstep
  | some task =>
    cases hchild : s.tasks child with
    | some task' =>
      rw [htask, hchild] at hstep
      cases hstep
    | none =>
      rw [htask, hchild] at hstep
      cases hstep
      have hno : ∀ a, ¬Owns s child a := fun a ho => by
        rw [owns_iff, hchild] at ho
        cases ho
      refine h.drop (t := child) rfl (hok task htask) ?_ (fun _ => .inl rfl) ⟨rfl, rfl, rfl⟩
      -- the child is given no names of its own
      refine (Function.update_eq_self_iff.2 ?_).symm
      exact funext fun name => (h.given_none hno name).symm

theorem Inv.step (h : Inv s) {l : Label} {s' : State} (hok : StepOk s l) (hstep : step s l = some s') : Inv s' := by
  cases l with
  | trap t mem =>
    cases hstep
    exact h.initTask t mem
  | semaphoreCreate t memSem memTab => exact h.semaphoreCreate hstep
  | semaphoreDestroy t name => exact h.semaphoreDestroy hstep
  | timerCreate t mem => exact h.timerCreate hstep
  | timerDestroy t name => exact h.timerDestroy hok hstep
  | fork t child => exact h.fork hok hstep
  | exec t => exact h.exec hstep
  | exit t =>
    cases hstep
    exact h.exit t

/-! ## Runs -/

theorem inv_of_init (h : portsMachine.init s) : Inv s := by
  obtain ⟨htasks, htables, hfreed, hgiven⟩ := h
  have hno : ∀ t a, ¬Owns s t a := fun t a ⟨task, htask, hp⟩ => by
    rw [htasks t task htask] at hp
    cases hp
  have hat : ∀ a name id, ¬SemAt s a name id := fun a name id ⟨slots, hs, _⟩ => by
    rw [htables a] at hs
    cases hs
  refine { self := fun t a ho => absurd ho (hno t a), names := fun t name g hg => ?_, freed := ?_,
           alone := fun t _ a ho => absurd ho (hno t a), inUse := fun t a _ _ ho => absurd ho (hno t a),
           range := fun t name g hg => ?_, fresh := fun a _ => htables a, sems := fun a name id hs => absurd hs (hat a name id),
           once := fun a _ name _ id hs => absurd hs (hat a name id), freedLt := fun id hid => ?_ }
  · rw [hgiven t name] at hg
    cases hg
  · rw [hfreed]
    exact ⟨List.nodup_nil, fun id hid => by cases hid⟩
  · rw [hgiven t name] at hg
    cases hg
  · rw [hfreed] at hid
    cases hid

/-- **A destroy call for a timer breaks the law on every other name in use.** -/
theorem timerDestroy_breaks (h : Inv s) {s' : State} (hstep : mkTimerDestroy s t name = some s') (hlaw : PortsLaw s') :
    StepOk s (.timerDestroy t name) := by
  intro a slots slot hfound hlook
  obtain ⟨ho, htab⟩ := slotsOf_table hfound
  obtain ⟨h0, -, hslot, -⟩ := machPortLookup_spec hlook
  unfold mkTimerDestroy at hstep
  rw [hfound] at hstep
  simp only [hlook] at hstep
  by_cases hlo : MACH_PORT_NAME_FIRST_FREE ≤ name
  · obtain ⟨g, hg, -⟩ := h.given_of_lookup hfound hlook hlo
    cases g with
    | timer => exact hg
    | semaphore id =>
      have hkeep : takeBack (setSlot s a slots name { slot with type := .none }) t name Given.isTimer =
          setSlot s a slots name { slot with type := .none } := by
        have hg' : (setSlot s a slots name { slot with type := .none }).given t name = some (.semaphore id) := hg
        unfold takeBack
        rw [hg']
        rfl
      rw [hkeep] at hstep
      cases hstep
      obtain ⟨b, slots', ho', htab', hd, -⟩ := hlaw.names t name _ hg
      cases owns_unique ho ho'
      have heq : some (Function.update slots name { slot with type := .none }) = some slots' := by
        rw [← htab']
        exact (Function.update_self a (some (Function.update slots name { slot with type := .none })) s.tables).symm
      cases heq
      rw [Function.update_self] at hd
      cases hd
  · have htables : s'.tables a = some (Function.update slots name { slot with type := .none }) := by
      cases hstep
      unfold takeBack
      split <;> exact Function.update_self a (some (Function.update slots name { slot with type := .none })) s.tables
    have hown : Owns s' t a := by
      cases hstep
      unfold takeBack
      split <;> exact ho
    obtain ⟨slots', htab', hself⟩ := hlaw.self t a hown
    rw [htables] at htab'
    cases htab'
    have := (hself.cases h0 (Nat.lt_of_not_le hlo)).2
    rw [Function.update_self] at this
    exact absurd rfl this

/-- A fork of a task with a table gives it to two. -/
theorem fork_breaks {child : Nat} {s' : State} (hstep : forkPorts s t child = some s') (hlaw : PortsLaw s') :
    StepOk s (.fork t child) := by
  intro task htask
  unfold forkPorts at hstep
  rw [htask] at hstep
  cases hchild : s.tasks child with
  | some task' =>
    rw [hchild] at hstep
    cases hstep
  | none =>
    rw [hchild] at hstep
    cases hstep
    cases hp : task.machPorts with
    | none => rfl
    | some a =>
      have hne : t ≠ child := by
        rintro rfl
        rw [htask] at hchild
        cases hchild
      have h1 : Owns { s with tasks := Function.update s.tasks child (some task) } t a :=
        ⟨task, (Function.update_of_ne hne _ _).trans htask, hp⟩
      have h2 : Owns { s with tasks := Function.update s.tasks child (some task) } child a :=
        ⟨task, Function.update_self _ _ _, hp⟩
      exact absurd (hlaw.alone t child a h1 h2) hne

/-- **The ports keep the law throughout a run exactly when no step of it destroys a name as a timer that is another's, and no
task with a port table forks.** -/
theorem portsLaw_iff_runOk {s₀ s' : State} {steps : List Label} (hinit : portsMachine.init s₀)
    (hrun : portsMachine.run s₀ steps = some s') :
    portsMachine.Always PortsLaw s₀ steps ↔ portsMachine.RunOk StepOk s₀ steps s' := by
  refine portsMachine.always_iff_runOk (I := Inv) (fun _ h => h.toPortsLaw) (fun s l s' h hstep hok => h.step hok hstep)
    (fun s l s' h hstep hlaw => ?_) steps s₀ s' (inv_of_init hinit) hrun
  cases l with
  | timerDestroy t name => exact timerDestroy_breaks h hstep hlaw
  | fork t child => exact fork_breaks hstep hlaw
  | _ => trivial

/-- Two tasks without port tables. -/
def twoTasks : State where
  tasks t := if t < 2 then some ⟨none, 0, 0⟩ else none
  tables _ := none
  nextTable := 0
  nextSem := 0
  freed := []
  given _ _ := none

theorem twoTasks_init : portsMachine.init twoTasks := by
  refine ⟨fun t task h => ?_, fun _ => rfl, rfl, fun _ _ => rfl⟩
  change (if t < 2 then some (⟨none, 0, 0⟩ : Task) else none) = some task at h
  split at h
  · cases h
    rfl
  · cases h

/-- A semaphore made and destroyed, and an exec of the other task. -/
theorem portsLaw_semaphore : portsMachine.Always PortsLaw twoTasks
    [.semaphoreCreate 0 true true, .semaphoreDestroy 0 4, .exec 1] :=
  (portsLaw_iff_runOk twoTasks_init rfl).2 ⟨trivial, _, rfl, trivial, _, rfl, trivial, _, rfl, rfl⟩

/-- `mk_timer_destroy` on the task's own name, and a fork behind a first Mach trap. -/
theorem not_portsLaw : ¬portsMachine.Always PortsLaw twoTasks [.trap 0 true, .timerDestroy 0 1] ∧
    ¬portsMachine.Always PortsLaw twoTasks [.trap 0 true, .fork 0 7] := by
  constructor
  · rintro ⟨-, h⟩
    have hlaw := ((h _ rfl).2 _ rfl : PortsLaw _)
    obtain ⟨slots, hs, hself⟩ := hlaw.self 0 0 ⟨_, rfl, rfl⟩
    cases hs
    cases congrArg Slot.type hself.task
  · rintro ⟨-, h⟩
    have hlaw := ((h _ rfl).2 _ rfl : PortsLaw _)
    exact absurd (hlaw.alone 0 7 0 ⟨_, rfl, rfl⟩ ⟨_, rfl, rfl⟩) (by decide)

end MachPorts
end Pico
