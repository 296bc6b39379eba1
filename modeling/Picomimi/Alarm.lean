import Picomimi.TimerLaw
/-!
# Alarm — `sys_alarm` and the timer inside the task structure

A task's alarm timer is part of its `task_struct`: `task_create` fills it with zeros and `task_fork` copies the parent's
bytes, list pointers included; only `sys_alarm` initialises it, and that behind a test of it.  To that test a timer of zeros
or of copied pointers is pending.  `due` is what the tasks have asked for, and `right` that every call has returned what
was due; the wheel agrees with them (`Owned`) throughout a run exactly while the first call of every task finds pointers
that no longer matter and a copied expiry that is not ahead (`owned_iff_runOk`).
-/
namespace Pico
namespace Alarm

open Lib
open Timer (Node slotOf notYet timerPending delTimer addTimer setup listDelInit Slots Ahead Apart)

def jiffiesPerSec : Nat := 100

/-- NULL as the address of an entry; there is no task at address 0. -/
def null : Node := .timer 0

/-- The wheel, the `data` of the alarm timers and the PIDs, by the tasks' addresses; `called` has the tasks that have
called `alarm` since they were created, `due` the expiry a task has asked for. -/
structure System where
  wheel : Timer.State
  data : Nat → Nat
  pid : Nat → Option Nat
  called : Nat → Bool
  due : Nat → Option Nat
  right : Bool

/-- The seconds left until an expiry. -/
def secondsLeft (expires jiffies : Nat) : Nat :=
  if notYet expires jiffies then sub64 expires jiffies / jiffiesPerSec else 0

/-- The first half of `sys_alarm`: what it will return, and the timer taken off. -/
def cancel (w : Timer.State) (t : Nat) : Nat × Timer.State :=
  if timerPending w t then (secondsLeft (w.expires (.timer t)) w.jiffies, (delTimer w t).2) else (0, w)

def expiry (w : Timer.State) (seconds : UInt32) : Nat := add64 w.jiffies (seconds.toNat * jiffiesPerSec)

def sysAlarm (s : System) (t pid : Nat) (seconds : UInt32) : Nat × System :=
  let (remaining, w) := cancel s.wheel t
  if 0 < seconds then
    (remaining, { s with
      wheel := addTimer (setup w t (expiry w seconds) true) t
      data := Function.update s.data t pid })
  else (remaining, { s with wheel := w })

/-- `del_timer` writes through NULL, and nothing is mapped at address 0 in the caller's address space. -/
def faults (s : System) (t : Nat) (mapped : Bool) : Bool :=
  timerPending s.wheel t && !mapped &&
    (s.wheel.links.prev (.timer t) = null || s.wheel.links.next (.timer t) = null)

/-- The bytes of an alarm timer. -/
def System.setTimer (s : System) (t : Nat) (next prev : Node) (expires : Nat) (function : Bool) (data : Nat) : System :=
  { s with
    wheel := { s.wheel with
      links := (s.wheel.links.setNext (.timer t) next).setPrev (.timer t) prev
      expires := Function.update s.wheel.expires (.timer t) expires
      function := Function.update s.wheel.function (.timer t) function }
    data := Function.update s.data t data }

def taskCreate (s : System) (t pid : Nat) : System :=
  { s.setTimer t null null 0 false 0 with pid := Function.update s.pid t (some pid) }

/-- The `memcpy` of `task_fork`. -/
def taskFork (s : System) (parent child pid : Nat) : System :=
  { s.setTimer child (s.wheel.links.next (.timer parent)) (s.wheel.links.prev (.timer parent))
      (s.wheel.expires (.timer parent)) (s.wheel.function (.timer parent)) (s.data parent) with
    pid := Function.update s.pid child (some pid) }

/-- What a task's own alarm has left. -/
def owed (s : System) (t : Nat) : Nat :=
  match s.due t with
  | none => 0
  | some e => secondsLeft e s.wheel.jiffies

/-- `sys_alarm`, and what the task has asked for. -/
def alarmed (s : System) (t pid : Nat) (seconds : UInt32) : System :=
  let r := sysAlarm s t pid seconds
  { r.2 with
    called := Function.update s.called t true
    due := Function.update s.due t (if 0 < seconds then some (expiry s.wheel seconds) else none)
    right := s.right && r.1 = owed s t }

inductive Label where
  | create (t pid : Nat)
  | fork (parent child pid : Nat)
  | alarm (t : Nat) (seconds : UInt32) (mapped : Bool)
  | tick (fuel : Nat)

/-- One step.  A call that faults does not return. -/
def step (s : System) : Label → Option System
  | .create t pid => if t ≠ 0 ∧ s.pid t = none then some (taskCreate s t pid) else none
  | .fork parent child pid =>
    if child ≠ 0 ∧ s.pid child = none then (s.pid parent).map fun _ => taskFork s parent child pid else none
  | .alarm t seconds mapped => (s.pid t).map fun pid =>
      if faults s t mapped then { s with right := false }
      else alarmed s t pid seconds
  | .tick fuel => (Timer.tick s.wheel fuel).map fun r =>
      { s with wheel := r.2, due := fun t => if s.due t = some r.2.jiffies then none else s.due t }

/-- An empty wheel, and no task. -/
def machine : Machine System Label where
  init s := (∀ i, s.wheel.links.next (.slot i) = .slot i ∧ s.wheel.links.prev (.slot i) = .slot i) ∧
    s.wheel.jiffies < word64 ∧ (∀ t, s.pid t = none ∧ s.called t = false ∧ s.due t = none) ∧ s.right = true
  step := step

/-- **Alarms belong to one task**: every call has returned what was due to its own task, and the lists are well formed,
with the timers that are due and no others; a timer that was armed before and is not due is alone. -/
structure Owned (s : System) (q : Fin 256 → List Node) : Prop where
  right : s.right = true
  lists : s.wheel.links.Family Node.slot q
  on : ∀ t i, Node.timer t ∈ q i ↔ ∃ e, s.due t = some e ∧ slotOf e = i
  alone : ∀ t, s.called t = true → s.due t = none →
    s.wheel.links.next (.timer t) = .timer t ∧ s.wheel.links.prev (.timer t) = .timer t
  own : ∀ t e, s.due t = some e → s.wheel.expires (.timer t) = e ∧ s.wheel.function (.timer t) = true ∧
    s.pid t = some (s.data t)

/-- The pointers in a timer are still those of the two neighbours to each other. -/
def Settled (L : Links Node) (x : Node) : Prop := L.next (L.prev x) = L.next x ∧ L.prev (L.next x) = L.prev x

instance (L : Links Node) (x : Node) : Decidable (Settled L x) := inferInstanceAs (Decidable (_ ∧ _))

/-- **The first call of a task**: the expiry in its timer is not ahead by a second or more, and the pointers are zero, with
something mapped at address 0, or settled. -/
def StepOk (s : System) : Label → Prop
  | .alarm t _ mapped => (s.pid t).isSome → s.called t = false →
      secondsLeft (s.wheel.expires (.timer t)) s.wheel.jiffies = 0 ∧
        if s.wheel.links.next (.timer t) = null then mapped = true else Settled s.wheel.links (.timer t)
  | _ => True

instance (s : System) : ∀ a : Label, Decidable (StepOk s a)
  | .alarm .. => inferInstanceAs (Decidable (_ → _ → _ ∧ ite _ _ _))
  | .create .. | .fork .. | .tick _ => inferInstanceAs (Decidable True)

/-! ## The invariant -/

/-- A pointer to a head, or to the timer of a task that has called `alarm`. -/
def Old (s : System) (x : Node) : Prop := (∃ i, x = .slot i) ∨ ∃ t, x = .timer t ∧ s.called t = true

structure Inv (s : System) (q : Fin 256 → List Node) : Prop where
  ahead : Ahead s.wheel (fun t => s.called t = true) q
  on : ∀ t, (∃ i, Node.timer t ∈ q i) ↔ (s.due t).isSome
  own : ∀ t e, s.due t = some e → s.wheel.expires (.timer t) = e ∧ s.wheel.function (.timer t) = true ∧
    s.pid t = some (s.data t)
  exist : ∀ t, s.called t = true → (s.pid t).isSome
  zero : s.pid 0 = none
  fresh : ∀ t, (s.pid t).isSome → s.called t = false →
    (s.wheel.links.next (.timer t) = null ∧ s.wheel.links.prev (.timer t) = null) ∨
      (Old s (s.wheel.links.next (.timer t)) ∧ Old s (s.wheel.links.prev (.timer t)))
  right : s.right = true

variable {s s' : System} {q q' : Fin 256 → List Node} {t u pid fuel : Nat} {x : Node} {seconds : UInt32} {mapped : Bool}
  {L L' : Links Node} {ready : Nat → Prop} {w : Timer.State}

theorem Inv.owned (h : Inv s q) : Owned s q := by
  refine ⟨h.right, h.ahead.slots.lists, fun t i => ⟨fun ht => ?_, ?_⟩, fun t ht hd => ?_, h.own⟩
  · obtain ⟨e, he⟩ := Option.isSome_iff_exists.1 ((h.on t).1 ⟨i, ht⟩)
    refine ⟨e, he, ?_⟩
    rw [← (h.own t e he).1]
    exact h.ahead.slot t i ht
  · rintro ⟨e, he, hi⟩
    obtain ⟨j, hj⟩ := (h.on t).2 (by rw [he]; rfl)
    have hslot := h.ahead.slot t j hj
    rw [(h.own t e he).1, hi] at hslot
    exact hslot ▸ hj
  · refine h.ahead.slots.off t ht fun i hi => ?_
    have := (h.on t).1 ⟨i, hi⟩
    rw [hd] at this
    cases this

/-- A task that has called `alarm` has pointers to heads and to such tasks. -/
theorem Inv.old_links (h : Inv s q) (ht : s.called t = true) :
    Old s (s.wheel.links.next (.timer t)) ∧ Old s (s.wheel.links.prev (.timer t)) := by
  by_cases hno : ∀ i, Node.timer t ∉ q i
  · obtain ⟨hn, hp⟩ := h.ahead.slots.off t ht hno
    rw [hn, hp]
    exact ⟨.inr ⟨t, rfl, ht⟩, .inr ⟨t, rfl, ht⟩⟩
  · push Not at hno
    obtain ⟨i, hi⟩ := hno
    have hold : ∀ x ∈ Node.slot i :: q i, Old s x := by
      intro x hx
      cases x with
      | slot j => exact .inl ⟨j, rfl⟩
      | timer u =>
        exact .inr ⟨u, rfl, h.ahead.slots.mem u i ((List.mem_cons.1 hx).resolve_left fun he => by cases he)⟩
    have hring := h.ahead.slots.lists.ring i
    have hmem : Node.timer t ∈ Node.slot i :: q i := List.mem_cons_of_mem _ hi
    refine ⟨hold _ ?_, hold _ (hring.next_prev hmem).2.2⟩
    rcases List.mem_append.1 (hring.seg.next_mem_of_mem hmem) with hn | hn
    · exact List.mem_cons_of_mem _ hn
    · rw [List.mem_singleton.1 hn]
      exact List.mem_cons_self

theorem setTimer_other {next prev : Node} {expires : Nat} {function : Bool} (data : Nat) (hx : x ≠ .timer t) :
    ((s.setTimer t next prev expires function data).wheel.links.next x = s.wheel.links.next x ∧
      (s.setTimer t next prev expires function data).wheel.links.prev x = s.wheel.links.prev x) ∧
      (s.setTimer t next prev expires function data).wheel.expires x = s.wheel.expires x :=
  ⟨⟨Function.update_of_ne hx _ _, Function.update_of_ne hx _ _⟩, Function.update_of_ne hx _ _⟩

/-- **A new task's timer** is not on the wheel, whatever its bytes are. -/
theorem Inv.newTimer {next prev : Node} (h : Inv s q) (ht : t ≠ 0) (hpid : s.pid t = none)
    (hnew : (next = null ∧ prev = null) ∨ (Old s next ∧ Old s prev)) (expires : Nat) (function : Bool) (data : Nat) :
    Inv { s.setTimer t next prev expires function data with pid := Function.update s.pid t (some pid) } q := by
  have hcalled : s.called t = false := by
    rw [← Bool.not_eq_true]
    intro hc
    have := h.exist t hc
    rw [hpid] at this
    cases this
  have hne : ∀ u, s.called u = true → u ≠ t := by
    rintro u hu rfl
    rw [hcalled] at hu
    cases hu
  have hnode : ∀ {u}, u ≠ t → Node.timer u ≠ .timer t := fun hu heq => hu (Node.timer.inj heq)
  have hslot : ∀ i, Node.slot i ≠ .timer t := fun i heq => by cases heq
  have hdue : ∀ u e, s.due u = some e → u ≠ t := fun u e hu => by
    obtain ⟨i, hi⟩ := (h.on u).2 (by rw [hu]; rfl)
    exact hne u (h.ahead.slots.mem u i hi)
  constructor
  · exact h.ahead.congr (fun i => (setTimer_other data (hslot i)).1)
      (fun u hu => setTimer_other data (hnode (hne u hu))) rfl
  · exact h.on
  · intro u e hu
    obtain ⟨h1, h2, h3⟩ := h.own u e hu
    have hu' := hdue u e hu
    simp only [System.setTimer, Function.update_of_ne hu', Function.update_of_ne (hnode hu')]
    exact ⟨h1, h2, h3⟩
  · intro u hu
    simp only [Function.update_of_ne (hne u hu)]
    exact h.exist u hu
  · simp only [Function.update_of_ne ht.symm]
    exact h.zero
  · intro u hu hc
    simp only [System.setTimer, Links.setNext, Links.setPrev]
    by_cases hut : u = t
    · subst hut
      simp only [Function.update_self]
      exact hnew
    · simp only [Function.update_of_ne (hnode hut)]
      simp only [Function.update_of_ne hut] at hu
      exact h.fresh u hu hc
  · exact h.right

theorem Inv.create (h : Inv s q) (ht : t ≠ 0) (hpid : s.pid t = none) (pid : Nat) : Inv (taskCreate s t pid) q :=
  h.newTimer ht hpid (.inl ⟨rfl, rfl⟩) 0 false 0

theorem Inv.fork {child : Nat} (h : Inv s q) (ht : child ≠ 0) (hpid : s.pid child = none) (hp : (s.pid t).isSome)
    (pid : Nat) : Inv (taskFork s t child pid) q := by
  refine h.newTimer ht hpid ?_ _ _ _
  cases hc : s.called t with
  | true => exact .inr (h.old_links hc)
  | false => exact h.fresh t hp hc

/-- The timers of tasks that have not called `alarm` are on no list. -/
theorem Inv.apart (h : Inv s q) (hc : s.called t = false) : Apart q (.timer t) :=
  Timer.apart_timer.2 fun i hi => by
    have := h.ahead.slots.mem t i hi
    rw [hc] at this
    cases this

theorem Inv.tick (h : Inv s q) (hs : step s (.tick fuel) = some s') : ∃ q', Inv s' q' := by
  obtain ⟨r, hr, rfl⟩ := Option.map_eq_some_iff.1 hs
  obtain ⟨q', hq', ht⟩ := h.ahead.tick hr
  have hj : r.2.jiffies = add64 s.wheel.jiffies 1 := ht.swept.jiffies
  have hx : r.2.expires = s.wheel.expires := ht.swept.expires
  have hf : r.2.function = s.wheel.function := ht.swept.function
  refine ⟨q', hq', fun t => ?_, fun t e he => ?_, h.exist, h.zero, fun t hp hc => ?_, h.right⟩
  · simp only [ht.left, exists_and_right, h.on t, hj]
    constructor
    · rintro ⟨hsome, hne⟩
      obtain ⟨e, he⟩ := Option.isSome_iff_exists.1 hsome
      rw [(h.own t e he).1] at hne
      rw [he, if_neg fun heq => hne (Option.some.inj heq)]
      rfl
    · intro hsome
      split at hsome
      · cases hsome
      · rename_i hne
        obtain ⟨e, he⟩ := Option.isSome_iff_exists.1 hsome
        refine ⟨hsome, fun heq => hne ?_⟩
        rw [he, ← (h.own t e he).1, heq]
  · dsimp only at he
    split at he
    · cases he
    · rw [hx, hf]
      exact h.own t e he
  · obtain ⟨hn, hp'⟩ := ht.swept.frame _ (h.apart hc _)
    rw [hn, hp']
    exact h.fresh t hp hc

/-! ## `sys_alarm` -/

/-- What the first half of `sys_alarm` leaves, with what it returns. -/
structure Cancelled (s : System) (t : Nat) (q : Fin 256 → List Node) (r : Nat × Timer.State)
    (q' : Fin 256 → List Node) : Prop where
  ahead : Ahead r.2 (fun u => Function.update s.called t true u = true) q'
  out : ∀ i, Node.timer t ∉ q' i
  others : ∀ u i, u ≠ t → (Node.timer u ∈ q' i ↔ Node.timer u ∈ q i)
  expires : r.2.expires = s.wheel.expires
  function : r.2.function = s.wheel.function
  jiffies : r.2.jiffies = s.wheel.jiffies
  ret : r.1 = owed s t
  frame : ∀ u, (s.pid u).isSome → s.called u = false → u ≠ t →
    r.2.links.next (.timer u) = s.wheel.links.next (.timer u) ∧ r.2.links.prev (.timer u) = s.wheel.links.prev (.timer u)

/-- **A task that has called `alarm`** finds its own alarm, if it is due, and takes it off. -/
theorem Inv.cancel (h : Inv s q) (hc : s.called t = true) : ∃ q', Cancelled s t q (cancel s.wheel t) q' := by
  have hup : Function.update s.called t true = s.called := by
    rw [← hc]
    exact Function.update_eq_self ..
  have hpend := h.ahead.slots.pending hc
  unfold Alarm.cancel
  cases hp : timerPending s.wheel t with
  | false =>
    have hno := h.ahead.slots.not_pending hc hp
    have hdue : s.due t = none := by
      rw [← Option.not_isSome_iff_eq_none, ← h.on t]
      exact fun hi => hi.elim fun i hi => hno i hi
    rw [if_neg Bool.false_ne_true]
    refine ⟨q, by rw [hup]; exact h.ahead, hno, fun u i _ => Iff.rfl, rfl, rfl, rfl, ?_, fun _ _ _ _ => ⟨rfl, rfl⟩⟩
    simp only [owed, hdue]
  | true =>
    obtain ⟨i, hi⟩ := hpend.1 hp
    obtain ⟨e, he⟩ := Option.isSome_iff_exists.1 ((h.on t).1 ⟨i, hi⟩)
    have hempty : s.wheel.links.listEmpty (.timer t) = false := by
      unfold timerPending at hp
      rwa [Bool.not_eq_true'] at hp
    have hdel : (delTimer s.wheel t).2.links = listDelInit s.wheel.links (.timer t) ∧
        (delTimer s.wheel t).2.expires = s.wheel.expires ∧ (delTimer s.wheel t).2.function = s.wheel.function ∧
        (delTimer s.wheel t).2.jiffies = s.wheel.jiffies := by
      unfold delTimer
      rw [hempty]
      exact ⟨rfl, rfl, rfl, rfl⟩
    obtain ⟨hl, hx, hf, hj⟩ := hdel
    rw [if_pos rfl]
    refine ⟨_, by rw [hup]; exact h.ahead.disarm hi hl hx hj, fun j hj => ?_, fun u j hu => ?_, hx, hf, hj, ?_, ?_⟩
    · exact ((h.ahead.slots.mem_erase hi).1 hj).1 rfl
    · rw [h.ahead.slots.mem_erase hi]
      exact and_iff_right fun heq => hu (Node.timer.inj heq)
    · simp only [owed, he, (h.own t e he).1]
    · intro u _ hcu _
      dsimp only
      rw [hl]
      exact Links.listDel_frame _ (h.ahead.slots.lists.ring i) hi (h.apart hcu i)

/-- **The first call of a task**, if the pointers in its timer are zero or settled: nothing else changes. -/
theorem Inv.cancel_first (h : Inv s q) (hpid : (s.pid t).isSome) (hc : s.called t = false)
    (hleft : secondsLeft (s.wheel.expires (.timer t)) s.wheel.jiffies = 0)
    (hset : s.wheel.links.next (.timer t) = null ∨ Settled s.wheel.links (.timer t)) :
    Cancelled s t q (Alarm.cancel s.wheel t) q := by
  have hno := Timer.apart_timer.1 (h.apart hc)
  have hdue : s.due t = none := by
    rw [← Option.not_isSome_iff_eq_none, ← h.on t]
    exact fun hi => hi.elim fun i hi => hno i hi
  have hnull : ∀ {u}, (s.pid u).isSome → Node.timer u ≠ null := by
    rintro u hu he
    rw [Node.timer.inj he, h.zero] at hu
    cases hu
  have hnottimer : ∀ {x}, Old s x → x ≠ .timer t := by
    rintro x (⟨i, rfl⟩ | ⟨u, rfl, hu⟩) he
    · cases he
    · rw [Node.timer.inj he, hc] at hu
      cases hu
  have hfresh := h.fresh t hpid hc
  -- to `list_empty` the timer is on a list
  have hempty : s.wheel.links.listEmpty (.timer t) = false := by
    unfold Links.listEmpty
    rw [decide_eq_false_iff_not]
    intro he
    rcases hfresh with ⟨hn, -⟩ | ⟨hn, -⟩
    · exact hnull hpid (he.symm.trans hn)
    · exact hnottimer hn he
  have hframe : ∀ x, x ≠ null → x ≠ .timer t →
      (listDelInit s.wheel.links (.timer t)).next x = s.wheel.links.next x ∧
        (listDelInit s.wheel.links (.timer t)).prev x = s.wheel.links.prev x := by
    intro x hx hxt
    rw [listDelInit, Links.next_listDel, Links.prev_listDel, if_neg hxt, if_neg hxt]
    rcases hfresh with ⟨hn, hp⟩ | ⟨hn, hp⟩
    · rw [hn, hp, if_neg hx, if_neg hx]
      exact ⟨rfl, rfl⟩
    · rcases hset with hn' | ⟨h1, h2⟩
      · rw [hn'] at hn
        rcases hn with ⟨i, hi⟩ | ⟨u, hu, hcu⟩
        · cases hi
        · exact absurd hu.symm (hnull (h.exist u hcu))
      · constructor
        · split
          · rename_i he
            rw [he, h1]
          · rfl
        · split
          · rename_i he
            rw [he, h2]
          · rfl
  have hself : (listDelInit s.wheel.links (.timer t)).next (.timer t) = .timer t ∧
      (listDelInit s.wheel.links (.timer t)).prev (.timer t) = .timer t := by
    rw [listDelInit, Links.next_listDel, Links.prev_listDel, if_pos rfl, if_pos rfl]
    exact ⟨rfl, rfl⟩
  have hcalled : ∀ u, s.called u = true → Node.timer u ≠ null ∧ Node.timer u ≠ .timer t := by
    intro u hu
    refine ⟨hnull (h.exist u hu), fun he => ?_⟩
    rw [Node.timer.inj he, hc] at hu
    cases hu
  unfold Alarm.cancel timerPending delTimer
  rw [hempty, Bool.not_false, if_pos rfl, if_neg Bool.false_ne_true]
  have hahead : Ahead { s.wheel with links := listDelInit s.wheel.links (.timer t) } (fun u => s.called u = true) q :=
    h.ahead.congr (fun i => hframe _ (fun he => by cases he) fun he => by cases he)
      (fun u hu => ⟨hframe _ (hcalled u hu).1 (hcalled u hu).2, rfl⟩) rfl
  refine ⟨⟨⟨hahead.slots.lists, fun u i hu => ?_, fun u hu hnou => ?_⟩, hahead.slot, hahead.future, hahead.word,
    hahead.jiffies⟩, hno, fun u i _ => Iff.rfl, rfl, rfl, rfl, ?_, fun u hu _ hut =>
      hframe _ (hnull hu) fun he => hut (Node.timer.inj he)⟩
  · rw [Function.update_apply]
    split
    · rfl
    · exact hahead.slots.mem u i hu
  · by_cases hut : u = t
    · subst hut
      exact hself
    · rw [Function.update_of_ne hut] at hu
      exact hahead.slots.off u hu hnou
  · simp only [owed, hdue, hleft]

theorem notYet_expiry (hj : w.jiffies < word64) (hs : 0 < seconds) : notYet (expiry w seconds) w.jiffies = true := by
  have hlt : seconds.toNat < 4294967296 := seconds.toNat_lt
  have hpos : 0 < seconds.toNat := hs
  unfold notYet expiry
  rw [sub64_add64 hj (by unfold jiffiesPerSec word64; omega), decide_eq_true_iff]
  unfold jiffiesPerSec
  omega

/-- What the second half of `sys_alarm` does to the timer of a task that has none pending. -/
theorem addTimer_setup {e : Nat} (h : Slots w.links ready q) (ht : ready t) (hno : ∀ i, Node.timer t ∉ q i) :
    (addTimer (setup w t e true) t).links = w.links.listAddTail (.timer t) (.slot (slotOf e)) ∧
      (addTimer (setup w t e true) t).expires = Function.update w.expires (.timer t) e ∧
      (addTimer (setup w t e true) t).function = Function.update w.function (.timer t) true ∧
      (addTimer (setup w t e true) t).jiffies = w.jiffies := by
  have hl : (setup w t e true).links = w.links := h.init ht hno
  have hx : (setup w t e true).expires = Function.update w.expires (.timer t) e := by
    simp only [setup, Timer.initTimer, Function.update_idem]
  have hf : (setup w t e true).function = Function.update w.function (.timer t) true := by
    simp only [setup, Timer.initTimer, Function.update_idem]
  unfold addTimer
  rw [hf, hx, hl, Function.update_self, Function.update_self, if_neg (fun he => by cases he)]
  exact ⟨rfl, rfl, rfl, rfl⟩

/-- The invariant of a state in which one task's timer is new. -/
theorem Inv.set {d : Option Nat} {data : Nat → Nat} (h : Inv s q) (hpid : s.pid t = some pid)
    (hahead : Ahead w (fun u => Function.update s.called t true u = true) q')
    (hon : ∀ u, (∃ i, Node.timer u ∈ q' i) ↔ (Function.update s.due t d u).isSome)
    (hother : ∀ u, u ≠ t → w.expires (.timer u) = s.wheel.expires (.timer u) ∧
      w.function (.timer u) = s.wheel.function (.timer u) ∧ data u = s.data u)
    (hown : ∀ e, d = some e → w.expires (.timer t) = e ∧ w.function (.timer t) = true ∧ data t = pid)
    (hframe : ∀ u, (s.pid u).isSome → s.called u = false → u ≠ t →
      w.links.next (.timer u) = s.wheel.links.next (.timer u) ∧ w.links.prev (.timer u) = s.wheel.links.prev (.timer u)) :
    Inv { s with
      wheel := w
      data := data
      called := Function.update s.called t true
      due := Function.update s.due t d } q' := by
  refine ⟨hahead, hon, fun u e hu => ?_, fun u hu => ?_, h.zero, fun u hu hcu => ?_, h.right⟩
  · dsimp only at hu ⊢
    by_cases hut : u = t
    · subst hut
      rw [Function.update_self] at hu
      obtain ⟨h1, h2, h3⟩ := hown e hu
      exact ⟨h1, h2, by rw [hpid, h3]⟩
    · rw [Function.update_of_ne hut] at hu
      obtain ⟨h1, h2, h3⟩ := hother u hut
      rw [h1, h2, h3]
      exact h.own u e hu
  · dsimp only at hu ⊢
    by_cases hut : u = t
    · rw [hut, hpid]
      rfl
    · rw [Function.update_of_ne hut] at hu
      exact h.exist u hu
  · dsimp only at hu hcu ⊢
    have hut : u ≠ t := by
      rintro rfl
      rw [Function.update_self] at hcu
      cases hcu
    rw [Function.update_of_ne hut] at hcu
    obtain ⟨hn, hp⟩ := hframe u hu hcu hut
    rw [hn, hp]
    have hold : ∀ x, Old s x → (∃ i, x = .slot i) ∨ ∃ v, x = .timer v ∧ Function.update s.called t true v = true := by
      rintro x (hx | ⟨v, hv, hcv⟩)
      · exact .inl hx
      · refine .inr ⟨v, hv, ?_⟩
        rw [Function.update_apply]
        split
        · rfl
        · exact hcv
    exact (h.fresh u hu hcu).imp id fun hh => ⟨hold _ hh.1, hold _ hh.2⟩

/-- **A call whose first half went right goes right.** -/
theorem Inv.alarmed (h : Inv s q) (hpid : s.pid t = some pid) (hc : Cancelled s t q (Alarm.cancel s.wheel t) q')
    (seconds : UInt32) : ∃ q, Inv (Alarm.alarmed s t pid seconds) q := by
  rcases hr : Alarm.cancel s.wheel t with ⟨remaining, w⟩
  rw [hr] at hc
  have hright : (s.right && decide (remaining = owed s t)) = s.right := by
    rw [decide_eq_true hc.ret, Bool.and_true]
  have hon : ∀ (d : Option Nat) u, u ≠ t →
      ((∃ i, Node.timer u ∈ q' i) ↔ (Function.update s.due t d u).isSome) := by
    intro d u hu
    rw [Function.update_of_ne hu, ← h.on u]
    exact exists_congr fun i => hc.others u i hu
  have hnode : ∀ {u}, u ≠ t → Node.timer u ≠ .timer t := fun hu he => hu (Node.timer.inj he)
  by_cases hs : 0 < seconds
  · -- the timer goes into the slot of its expiry
    have hexp : expiry w seconds = expiry s.wheel seconds := by
      unfold expiry
      rw [hc.jiffies]
    have hready : Function.update s.called t true t = true := Function.update_self ..
    obtain ⟨hl, hx, hf, hj⟩ := addTimer_setup (e := expiry s.wheel seconds) hc.ahead.slots hready hc.out
    have hfut := notYet_expiry (w := w) hc.ahead.jiffies hs
    rw [hexp] at hfut
    have hahead := hc.ahead.arm hready hc.out (add64_lt ..) hfut hl hx hj
    have hmem := fun u i => Timer.mem_append_iff (q := q') (i := slotOf (expiry s.wheel seconds)) (n := Node.timer t)
      (x := Node.timer u) (j := i)
    unfold Alarm.alarmed sysAlarm
    rw [hr]
    dsimp only
    rw [if_pos hs, if_pos hs]
    dsimp only
    rw [hright, hexp]
    refine ⟨_, h.set hpid hahead (fun u => ?_) (fun u hu => ?_) (fun e he => ?_) fun u hu hcu hut => ?_⟩
    · by_cases hut : u = t
      · subst hut
        rw [Function.update_self]
        exact iff_of_true ⟨_, (hmem u _).2 (.inr ⟨rfl, rfl⟩)⟩ rfl
      · rw [← hon _ u hut]
        exact exists_congr fun i => (hmem u i).trans (or_iff_left fun hh => hnode hut hh.1)
    · rw [hx, hf, Function.update_of_ne (hnode hu), Function.update_of_ne (hnode hu), hc.expires, hc.function]
      exact ⟨rfl, rfl, Function.update_of_ne hu _ _⟩
    · rw [hx, hf, Function.update_self, Function.update_self, Function.update_self]
      exact ⟨Option.some.inj he, rfl, rfl⟩
    · obtain ⟨hn, hp⟩ := hc.frame u hu hcu hut
      have hap : Apart q' (.timer u) := Timer.apart_timer.2 fun i hi => h.apart hcu i
        (List.mem_cons_of_mem _ ((hc.others u i hut).1 hi))
      rw [hl, ← hn, ← hp]
      exact Links.listAddTail_frame (hc.ahead.slots.lists.ring _) (hap _) (hnode hut)
  · unfold Alarm.alarmed sysAlarm
    rw [hr]
    dsimp only
    rw [if_neg hs, if_neg hs]
    dsimp only
    rw [hright]
    refine ⟨q', h.set hpid hc.ahead (fun u => ?_) (fun u hu => ?_) (fun e he => by cases he) hc.frame⟩
    · by_cases hut : u = t
      · subst hut
        rw [Function.update_self]
        exact iff_of_false (fun hi => hi.elim fun i hi => hc.out i hi) Bool.false_ne_true
      · exact hon none u hut
    · rw [hc.expires, hc.function]
      exact ⟨rfl, rfl, rfl⟩

/-! ## The condition -/

/-- **Pointers that are not settled leave their mark**: were the rings whole behind `del_timer` through them, and behind
an `add_timer` after that, they had been settled before. -/
theorem settled_of_family (hq : L.Family Node.slot q) (hq' : L'.Family Node.slot q')
    (hin : ∀ x i, x ∈ Node.slot i :: q i → x ≠ .timer t ∧ ∃ j, x ∈ Node.slot j :: q' j)
    (hb : L.next (.timer t) ≠ .timer t) (hnext : (∃ i, L.next (.timer t) ∈ Node.slot i :: q i) ∨
      ∃ v, L.next (.timer t) = .timer v ∧ (L.next (.timer v) = .timer v ∧ L.prev (.timer v) = .timer v) ∧
        L'.prev (.timer v) = .timer v)
    (hL' : L' = listDelInit L (.timer t) ∨ ∃ i, L' = (listDelInit L (.timer t)).listAddTail (.timer t) (.slot i)) :
    Settled L (.timer t) := by
  have hnext₂ : ∀ x, x ≠ .timer t → x ≠ L.prev (.timer t) →
      (listDelInit L (.timer t)).next x = L.next x := fun x hx hxa => by
    rw [listDelInit, Links.next_listDel, if_neg hx, if_neg hxa]
  have hprev₂ : ∀ x, x ≠ .timer t → x ≠ L.next (.timer t) →
      (listDelInit L (.timer t)).prev x = L.prev x := fun x hx hxb => by
    rw [listDelInit, Links.prev_listDel, if_neg hx, if_neg hxb]
  have hprevb : (listDelInit L (.timer t)).prev (L.next (.timer t)) = L.prev (.timer t) := by
    rw [listDelInit, Links.prev_listDel, if_neg hb, if_pos rfl]
  rcases hnext with ⟨i, hi⟩ | ⟨v, hv, ⟨hvn, hvp⟩, hvp'⟩
  · -- the next entry is on a list, behind `x`
    obtain ⟨hnx, -, hx⟩ := (hq.ring i).next_prev hi
    obtain ⟨hxt, j, hxj⟩ := hin _ i hx
    obtain ⟨-, hback, -⟩ := (hq'.ring j).next_prev hxj
    refine (fun heq => ⟨heq ▸ hnx, heq⟩ : L.prev (L.next (.timer t)) = L.prev (.timer t) → _) ?_
    by_contra hne
    have hnx₂ := (hnext₂ _ hxt hne).trans hnx
    rcases hL' with rfl | ⟨k, rfl⟩
    · rw [hnx₂, hprevb] at hback
      exact hne hback.symm
    · rw [Links.listAddTail, Links.next_insert, Links.prev_insert, if_neg hxt] at hback
      by_cases hk : L.next (.timer t) = .slot k
      · have hp : (listDelInit L (.timer t)).prev (.slot k) = L.prev (.timer t) := hk ▸ hprevb
        rw [hp, if_neg hne, hnx₂, if_neg hb, if_pos hk] at hback
        exact hxt hback.symm
      · have hp : (listDelInit L (.timer t)).prev (.slot k) = L.prev (.slot k) :=
          hprev₂ _ (fun he => by cases he) fun he => hk he.symm
        have hxp : L.prev (L.next (.timer t)) ≠ L.prev (.slot k) := fun he => by
          rw [he, ((hq.ring k).next_prev List.mem_cons_self).1] at hnx
          exact hk hnx.symm
        rw [hp, if_neg hxp, hnx₂, if_neg hb, if_neg hk, hprevb] at hback
        exact hne hback.symm
  · -- the next entry is alone
    have ha : L.prev (.timer t) = .timer v := by
      rw [hv] at hprevb hb
      rcases hL' with rfl | ⟨k, rfl⟩
      · rw [← hprevb]
        exact hvp'
      · rw [Links.listAddTail, Links.prev_insert, if_neg hb, if_neg fun he => by cases he] at hvp'
        rw [← hprevb]
        exact hvp'
    unfold Settled
    rw [ha, hv]
    exact ⟨hvn, hvp⟩

theorem Inv.old_ne_null (h : Inv s q) (hx : Old s x) : x ≠ null := by
  rintro rfl
  rcases hx with ⟨i, hi⟩ | ⟨u, hu, hcu⟩
  · cases hi
  · have := h.exist u hcu
    rw [← Node.timer.inj hu, h.zero] at this
    cases this

/-- To `list_empty`, a timer of zeros or of copied pointers is on a list. -/
theorem Inv.pending_first (h : Inv s q) (hpid : (s.pid t).isSome) (hc : s.called t = false) :
    timerPending s.wheel t = true := by
  unfold timerPending
  rw [Bool.not_eq_true', Links.listEmpty, decide_eq_false_iff_not]
  intro he
  rcases h.fresh t hpid hc with ⟨hn, -⟩ | ⟨hn, -⟩
  · rw [he] at hn
    rw [Node.timer.inj hn, h.zero] at hpid
    cases hpid
  · rw [he] at hn
    rcases hn with ⟨i, hi⟩ | ⟨u, hu, hcu⟩
    · cases hi
    · rw [Node.timer.inj hu, hcu] at hc
      cases hc

/-- **One step that meets the condition.** -/
theorem Inv.step {a : Label} (h : Inv s q) (hok : StepOk s a) (hs : step s a = some s') : ∃ q, Inv s' q := by
  cases a with
  | create t pid =>
    simp only [Alarm.step] at hs
    split at hs
    · rename_i hfree
      cases hs
      exact ⟨q, h.create hfree.1 hfree.2 pid⟩
    · cases hs
  | fork parent child pid =>
    simp only [Alarm.step] at hs
    split at hs
    · rename_i hfree
      obtain ⟨p, hp, rfl⟩ := Option.map_eq_some_iff.1 hs
      exact ⟨q, h.fork hfree.1 hfree.2 (by rw [hp]; rfl) pid⟩
    · cases hs
  | tick fuel => exact h.tick hs
  | alarm t seconds mapped =>
    obtain ⟨pid, hpid, rfl⟩ := Option.map_eq_some_iff.1 hs
    have hsome : (s.pid t).isSome = true := by
      rw [hpid]
      rfl
    have hgo : ¬faults s t mapped = true ∧ ∃ q', Cancelled s t q (Alarm.cancel s.wheel t) q' := by
      cases hc : s.called t with
      | true =>
        obtain ⟨hn, hp⟩ := h.old_links hc
        refine ⟨?_, h.cancel hc⟩
        unfold faults
        rw [decide_eq_false (h.old_ne_null hn), decide_eq_false (h.old_ne_null hp)]
        simp
      | false =>
        obtain ⟨hleft, hset⟩ := hok hsome hc
        split at hset
        · rename_i hnull
          refine ⟨?_, q, h.cancel_first hsome hc hleft (.inl hnull)⟩
          simp [faults, hset]
        · rename_i hnull
          refine ⟨?_, q, h.cancel_first hsome hc hleft (.inr hset)⟩
          rcases h.fresh t hsome hc with ⟨hn, -⟩ | ⟨hn, hp⟩
          · exact absurd hn hnull
          · unfold faults
            rw [decide_eq_false (h.old_ne_null hn), decide_eq_false (h.old_ne_null hp)]
            simp
    obtain ⟨hno, q', hq'⟩ := hgo
    rw [if_neg hno]
    exact h.alarmed hpid hq' seconds

/-- The lists behind a first call. -/
theorem alarmed_links (hp : timerPending s.wheel t = true) :
    (Alarm.alarmed s t pid seconds).wheel.links = listDelInit s.wheel.links (.timer t) ∨
      ∃ i, (Alarm.alarmed s t pid seconds).wheel.links =
        (listDelInit s.wheel.links (.timer t)).listAddTail (.timer t) (.slot i) := by
  have hempty : s.wheel.links.listEmpty (.timer t) = false := by
    unfold timerPending at hp
    rwa [Bool.not_eq_true'] at hp
  have hdel : (Alarm.cancel s.wheel t).2.links = listDelInit s.wheel.links (.timer t) := by
    unfold Alarm.cancel delTimer
    rw [if_pos hp, hempty]
    rfl
  have hself : (listDelInit s.wheel.links (.timer t)).initListHead (.timer t) = listDelInit s.wheel.links (.timer t) := by
    refine Links.initListHead_self ?_ ?_
    · rw [listDelInit, Links.next_listDel, if_pos rfl]
    · rw [listDelInit, Links.prev_listDel, if_pos rfl]
  unfold Alarm.alarmed sysAlarm
  rcases hr : Alarm.cancel s.wheel t with ⟨remaining, w⟩
  rw [hr] at hdel
  dsimp only at hdel ⊢
  split
  · refine .inr ⟨slotOf (expiry w seconds), ?_⟩
    simp only [addTimer, setup, Timer.initTimer, Function.update_self, Timer.State.setArmed, hdel, hself]
    rfl
  · exact .inl hdel

/-- **A first call that does not meet the condition** goes wrong. -/
theorem Inv.stepOk {a : Label} (h : Inv s q) (hs : Alarm.step s a = some s') (ho : Owned s' q') : StepOk s a := by
  cases a with
  | create t pid => trivial
  | fork parent child pid => trivial
  | tick fuel => trivial
  | alarm t seconds mapped =>
    intro hsome hc
    obtain ⟨pid, hpid, rfl⟩ := Option.map_eq_some_iff.1 hs
    have hpend := h.pending_first hsome hc
    have hdue : s.due t = none := by
      rw [← Option.not_isSome_iff_eq_none, ← h.on t]
      exact fun hi => hi.elim fun i hi => Timer.apart_timer.1 (h.apart hc) i hi
    by_cases hf : faults s t mapped = true
    · rw [if_pos hf] at ho
      cases ho.right
    rw [if_neg hf] at ho
    have hright : (sysAlarm s t pid seconds).1 = owed s t := by
      have := ho.right
      simp only [Alarm.alarmed, Bool.and_eq_true, decide_eq_true_iff] at this
      exact this.2
    have hret : (sysAlarm s t pid seconds).1 = secondsLeft (s.wheel.expires (.timer t)) s.wheel.jiffies := by
      simp only [sysAlarm, Alarm.cancel, if_pos hpend]
      split
      · rfl
      · rfl
    refine ⟨?_, ?_⟩
    · rw [← hret, hright]
      simp only [owed, hdue]
    split
    · rename_i hnull
      simp only [faults, hpend, hnull, decide_true, Bool.or_true, Bool.and_true, Bool.true_and, Bool.not_eq_true',
        Bool.not_eq_false] at hf
      exact hf
    · rename_i hnull
      have hold := ((h.fresh t hsome hc).resolve_left fun hh => hnull hh.1).1
      have hne : ∀ u, s.called u = true → u ≠ t := by
        rintro u hu rfl
        rw [hc] at hu
        cases hu
      have hkeep : ∀ u, u ≠ t → (Alarm.alarmed s t pid seconds).due u = s.due u ∧
          (Alarm.alarmed s t pid seconds).called u = s.called u := fun u hu =>
        ⟨Function.update_of_ne hu _ _, Function.update_of_ne hu _ _⟩
      refine settled_of_family h.ahead.slots.lists ho.lists (fun x i hx => ?_) ?_ ?_ (alarmed_links hpend)
      · -- the nodes of the lists are heads, or timers that are due before and after
        cases x with
        | slot j => exact ⟨fun he => (by cases he), j, List.mem_cons_self⟩
        | timer u =>
          have hu := (List.mem_cons.1 hx).resolve_left fun he => by cases he
          have hut := hne u (h.ahead.slots.mem u i hu)
          obtain ⟨e, he⟩ := Option.isSome_iff_exists.1 ((h.on u).1 ⟨i, hu⟩)
          refine ⟨fun heq => hut (Node.timer.inj heq), slotOf e, List.mem_cons_of_mem _ ?_⟩
          exact (ho.on u _).2 ⟨e, by rw [(hkeep u hut).1, he], rfl⟩
      · rcases hold with ⟨i, hi⟩ | ⟨u, hu, hcu⟩
        · rw [hi]
          exact fun he => by cases he
        · rw [hu]
          exact fun he => hne u hcu (Node.timer.inj he)
      · rcases hold with ⟨i, hi⟩ | ⟨u, hu, hcu⟩
        · exact .inl ⟨i, hi ▸ List.mem_cons_self⟩
        · cases hdu : s.due u with
          | some e =>
            obtain ⟨i, hi⟩ := (h.on u).2 (by rw [hdu]; rfl)
            exact .inl ⟨i, hu ▸ List.mem_cons_of_mem _ hi⟩
          | none =>
            obtain ⟨hdue', hcalled'⟩ := hkeep u (hne u hcu)
            exact .inr ⟨u, hu, h.owned.alone u hcu hdu, (ho.alone u (hcalled'.trans hcu) (hdue'.trans hdu)).2⟩

theorem Inv.init (h : machine.init s) : Inv s fun _ => [] := by
  obtain ⟨hheads, hj, hnobody, hright⟩ := h
  have hno : ∀ x, x ∉ ([] : List Node) := fun x => List.not_mem_nil
  have hlists : s.wheel.links.Family Node.slot fun _ => [] :=
    ⟨fun i => Links.ring_nil (hheads i).1 (hheads i).2, fun i j he => Node.slot.inj he, fun i _ => hno _,
      fun _ _ x hx => absurd hx (hno x)⟩
  have hcalled : ∀ t, s.called t ≠ true := fun t ht => by
    rw [(hnobody t).2.1] at ht
    cases ht
  refine ⟨⟨⟨hlists, fun t i hi => absurd hi (hno _), fun t ht => absurd ht (hcalled t)⟩, fun t i hi => absurd hi (hno _),
    fun t i hi => absurd hi (hno _), fun t i hi => absurd hi (hno _), hj⟩, fun t => ?_, fun t e he => ?_,
    fun t ht => absurd ht (hcalled t), (hnobody 0).1, fun t ht => ?_, hright⟩
  · rw [(hnobody t).2.2]
    exact iff_of_false (fun hi => hi.elim fun i hi => hno _ hi) Bool.false_ne_true
  · rw [(hnobody t).2.2] at he
    cases he
  · rw [(hnobody t).1] at ht
    cases ht

/-- **Every alarm belongs to its task throughout a run exactly while every first call meets the condition.** -/
theorem owned_iff_runOk (l : List Label) (s s' : System) (h0 : machine.init s) (h : machine.run s l = some s') :
    machine.Always (fun s => ∃ q, Owned s q) s l ↔ machine.RunOk StepOk s l s' :=
  machine.always_iff_runOk (I := fun s => ∃ q, Inv s q) (fun _ hI => hI.imp fun _ hI => hI.owned)
    (fun _ _ _ hI hs hok => hI.elim fun _ hI => hI.step hok hs)
    (fun _ _ _ hI hs ho => hI.elim fun _ hI => ho.elim fun _ ho => hI.stepOk hs ho) l s s' ⟨_, Inv.init h0⟩ h

/-- Nobody is there, and the wheel is empty. -/
def empty : System where
  wheel := Timer.boot
  data _ := 0
  pid _ := none
  called _ := false
  due _ := none
  right := true

theorem empty_init : machine.init empty := ⟨fun _ => ⟨rfl, rfl⟩, by decide, fun _ => ⟨rfl, rfl, rfl⟩, rfl⟩

/-- A task has something mapped at address 0; its child, made with less than a second left, has its first alarm when the
task's is off. -/
def takesTurns : List Label :=
  [.create 1 10, .alarm 1 0 true, .alarm 1 1 true, .tick 2, .fork 1 2 11, .alarm 1 0 true, .alarm 2 3 false, .tick 2,
    .alarm 2 0 false]

theorem owned_iff_runOk_turns : ∃ s', machine.run empty takesTurns = some s' ∧ machine.RunOk StepOk empty takesTurns s' ∧
    machine.Always (fun s => ∃ q, Owned s q) empty takesTurns := by
  have hcheck : (machine.check StepOk empty takesTurns).isSome = true := by decide +kernel
  obtain ⟨s', h⟩ := Option.isSome_iff_exists.1 hcheck
  have hok := machine.runOk_of_check h
  have hrun := Machine.RunOk.run machine hok
  exact ⟨s', hrun, hok, (owned_iff_runOk takesTurns empty s' empty_init hrun).2 hok⟩

/-- **A child cancels its parent's alarm**, and is told that it had one. -/
theorem not_owned_child : ¬∀ (l : List Label) (s s' : System), machine.init s → machine.run s l = some s' →
    ∃ q, Owned s' q := by
  intro hall
  have hrun : (machine.run empty [.create 1 10, .alarm 1 10 true, .fork 1 2 11, .alarm 2 0 false]).map
      (fun s => s.right) = some false := by
    decide +kernel
  obtain ⟨s', hs', hright⟩ := Option.map_eq_some_iff.1 hrun
  obtain ⟨q, hq⟩ := hall _ _ s' empty_init hs'
  rw [hq.right] at hright
  cases hright

end Alarm
end Pico
