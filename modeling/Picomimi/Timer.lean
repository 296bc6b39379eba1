import Picomimi.Lib.Links
import Picomimi.Lib.Run
import Picomimi.Lib.Word
/-!
# Timer — the timer wheel of `kernel/timer.c`

256 lists of timers, by the low bits of their expiry.  `run_timer_softirq` walks the list of the tick with the next entry
saved, and drops the lock around each callback: what the callback does to the saved entry, the walk follows.  `armed` and
`stray` are what the callers may count on: a timer is armed from `add_timer` or `mod_timer` until it fires or `del_timer`
returns 1, and `stray` says that one fired that was not.  `timers_of_run` says which runs keep it false.
-/
namespace Pico
namespace Timer

open Lib

def timerWheelSize : Nat := 256

/-- An entry of a list: the head of a slot of `timer_wheel`, or the `entry` of a timer. -/
inductive Node where
  | slot (i : Fin 256)
  | timer (t : Nat)
deriving DecidableEq

/-- What the processor is doing: nothing, or a turn of the loop at `p` with `n` saved, or a callback from that loop. -/
inductive Pc where
  | idle
  | walk (slot : Fin 256) (now : Nat) (p n : Node)
  | fire (slot : Fin 256) (now : Nat) (n : Node)

/-- The wheel.  `expires` and `function` are fields of timers; read off the head of a slot they are whatever lies there. -/
structure State where
  links : Links Node
  expires : Node → Nat
  function : Node → Bool       -- `function` is not `NULL`
  jiffies : Nat
  pc : Pc
  armed : Nat → Bool
  stray : Bool

/-- `expires & TIMER_WHEEL_MASK`. -/
def slotOf (expires : Nat) : Fin 256 := ⟨expires % timerWheelSize, Nat.mod_lt _ (by decide)⟩

def listDelInit (L : Links Node) (entry : Node) : Links Node := L.listDel entry entry

namespace State

def setArmed (s : State) (t : Nat) (b : Bool) : State := { s with armed := Function.update s.armed t b }

end State

def addTimer (s : State) (t : Nat) : State :=
  if s.function (.timer t) = false then s
  else
    let slot := slotOf (s.expires (.timer t))
    { s with links := s.links.listAddTail (.timer t) (.slot slot) }.setArmed t true

def modTimer (s : State) (t expires : Nat) : State :=
  let links := if s.links.listEmpty (.timer t) then s.links else listDelInit s.links (.timer t)
  { s with
    links := links.listAddTail (.timer t) (.slot (slotOf expires))
    expires := Function.update s.expires (.timer t) expires }.setArmed t true

/-- What `del_timer` returns, and the wheel after it. -/
def delTimer (s : State) (t : Nat) : Bool × State :=
  if s.links.listEmpty (.timer t) then (false, s)
  else (true, { s with links := listDelInit s.links (.timer t) }.setArmed t false)

def timerPending (s : State) (t : Nat) : Bool := !s.links.listEmpty (.timer t)

/-- `(s64)(t->expires - now) > 0`. -/
def notYet (expires now : Nat) : Bool := 0 < sub64 expires now ∧ sub64 expires now < 9223372036854775808

/-- The callback of `p` is called.  The head of a slot is no timer, and has no callback. -/
def called (s : State) : Node → State
  | .timer t => { s with stray := s.stray || !s.armed t }.setArmed t false
  | .slot _ => { s with stray := true }

/-- An expired timer without a callback is taken off its list. -/
def dropped (s : State) : Node → State
  | .timer t => s.setArmed t false
  | .slot _ => s

/-- One turn of the loop of `run_timer_softirq`, up to the call of a callback. -/
def turn (s : State) (slot : Fin 256) (now : Nat) (p n : Node) : State :=
  if p = .slot slot then { s with pc := .idle }
  else if notYet (s.expires p) now then { s with pc := .walk slot now n (s.links.next n) }
  else
    let links := listDelInit s.links p
    if s.function p then called { s with links := links, pc := .fire slot now n } p
    else dropped { s with links := links, pc := .walk slot now n (links.next n) } p

/-- What the callers and the callbacks call. -/
inductive Call where
  | addTimer (t : Nat)
  | delTimer (t : Nat)
  | modTimer (t expires : Nat)

def Call.run (s : State) : Call → State
  | .addTimer t => Timer.addTimer s t
  | .delTimer t => (Timer.delTimer s t).2
  | .modTimer t expires => Timer.modTimer s t expires

inductive Label where
  | call (c : Call)
  | tick       -- the timer interrupt
  | turn
  | ret        -- the callback returns

/-- One step.  The lock is held during the turns of the loop, and free at other times. -/
def step (s : State) : Label → Option State
  | .call c =>
    match s.pc with
    | .walk _ _ _ _ => none
    | _ => some (c.run s)
  | .tick =>
    match s.pc with
    | .idle =>
      let now := add64 s.jiffies 1
      let p := s.links.next (.slot (slotOf now))
      some { s with jiffies := now, pc := .walk (slotOf now) now p (s.links.next p) }
    | _ => none
  | .turn =>
    match s.pc with
    | .walk slot now p n => some (turn s slot now p n)
    | _ => none
  | .ret =>
    match s.pc with
    | .fire slot now n => some { s with pc := .walk slot now n (s.links.next n) }
    | _ => none

/-- **The wheel is well formed**: every slot is a list of its own, and a pending timer is in exactly one of them. -/
structure WheelWf (s : State) (q : Fin 256 → List Node) : Prop where
  lists : Links.Family s.links Node.slot q
  pending : ∀ t, timerPending s t = true ↔ ∃ i, Node.timer t ∈ q i

/-- Any timers armed, any callbacks. -/
def machine : Machine State Label where
  init s := (∃ q, WheelWf s q) ∧ s.armed = timerPending s ∧ s.stray = false ∧ s.pc = .idle
  step := step

/-! ## The lists -/

variable {s s' : State} {q : Fin 256 → List Node} {t u : Nat} {L : Links Node} {armed : Nat → Bool} {i slot : Fin 256}
  {now : Nat} {p n : Node}

/-- The lists, with the timers that are armed on them and no others. -/
structure Wheel (L : Links Node) (armed : Nat → Bool) (q : Fin 256 → List Node) : Prop where
  lists : L.Family Node.slot q
  on : ∀ t, armed t = true ↔ ∃ i, Node.timer t ∈ q i
  off : ∀ t, armed t = false → L.next (.timer t) = .timer t

theorem Wheel.not_mem (h : Wheel L armed q) (ht : armed t = false) (i : Fin 256) : Node.timer t ∉ q i := by
  intro hm
  rw [(h.on t).2 ⟨i, hm⟩] at ht
  cases ht

/-- **A timer is armed exactly when its entry is on a list**, which `list_empty` tests. -/
theorem Wheel.listEmpty (h : Wheel L armed q) (t : Nat) : L.listEmpty (.timer t) = !armed t := by
  unfold Links.listEmpty
  cases ht : armed t with
  | false => simp [h.off t ht]
  | true =>
    obtain ⟨i, hi⟩ := (h.on t).1 ht
    simp [(h.lists.ring i).next_ne hi]

/-- The nodes of a list are its head and timers that are armed. -/
theorem Wheel.not_mem_cons (h : Wheel L armed q) (ht : armed t = false) (i : Fin 256) :
    Node.timer t ∉ Node.slot i :: q i := by
  rw [List.mem_cons, not_or]
  exact ⟨fun he => (by cases he), h.not_mem ht i⟩

theorem mem_append_iff {x : Node} {j : Fin 256} :
    x ∈ Function.update q i (q i ++ [n]) j ↔ x ∈ q j ∨ (x = n ∧ j = i) := by
  by_cases hj : j = i
  · subst hj
    simp
  · rw [Function.update_of_ne hj]
    simp [hj]

/-- **A timer on no list goes to the end of one.** -/
theorem Wheel.add (h : Wheel L armed q) (ht : armed t = false) (i : Fin 256) :
    Wheel (L.listAddTail (.timer t) (.slot i)) (Function.update armed t true)
      (Function.update q i (q i ++ [.timer t])) := by
  refine ⟨h.lists.listAddTail (fun j he => by cases he) (h.not_mem ht), fun u => ?_, fun u hu => ?_⟩
  · simp only [mem_append_iff, Node.timer.injEq]
    by_cases hut : u = t
    · subst hut
      rw [Function.update_self]
      exact iff_of_true rfl ⟨i, .inr ⟨rfl, rfl⟩⟩
    · rw [Function.update_of_ne hut, h.on u]
      simp [hut]
  · have hut : u ≠ t := by
      rintro rfl
      rw [Function.update_self] at hu
      cases hu
    rw [Function.update_of_ne hut] at hu
    rw [(Links.listAddTail_frame (h.lists.ring i) (h.not_mem_cons hu i) (fun he => hut (Node.timer.inj he))).1]
    exact h.off u hu

/-- **An entry is taken off its list.** -/
theorem Wheel.del (h : Wheel L armed q) (hm : Node.timer t ∈ q i) :
    Wheel (listDelInit L (.timer t)) (Function.update armed t false) (Function.update q i ((q i).erase (.timer t))) := by
  have hlists := h.lists.listDel (.timer t) hm
  have hnd : (q i).Nodup := (List.nodup_cons.1 (h.lists.ring i).nodup).2
  have hmem : ∀ u j, Node.timer u ∈ Function.update q i ((q i).erase (.timer t)) j ↔ u ≠ t ∧ Node.timer u ∈ q j := by
    intro u j
    by_cases hj : j = i
    · subst hj
      rw [Function.update_self, hnd.mem_erase_iff]
      simp
    · rw [Function.update_of_ne hj]
      refine ⟨fun hu => ⟨?_, hu⟩, fun hu => hu.2⟩
      rintro rfl
      exact hj (h.lists.apart j i _ hu hm)
  refine ⟨hlists, fun u => ?_, fun u hu => ?_⟩
  · simp only [hmem]
    by_cases hut : u = t
    · subst hut
      rw [Function.update_self]
      simp
    · rw [Function.update_of_ne hut, h.on u]
      simp [hut]
  · by_cases hut : u = t
    · subst hut
      rw [listDelInit, Links.next_listDel, if_pos rfl]
    · rw [Function.update_of_ne hut] at hu
      rw [listDelInit, (Links.listDel_frame _ (h.lists.ring i) hm (h.not_mem_cons hu i)).1]
      exact h.off u hu

/-! ## The calls -/

/-- What a call leaves: the loop where it was, and nothing strayed. -/
structure Kept (s s' : State) : Prop where
  wheel : ∃ q, Wheel s'.links s'.armed q
  pc : s'.pc = s.pc
  stray : s'.stray = s.stray

theorem Wheel.addTimer (h : Wheel s.links s.armed q) (ht : s.function (.timer t) = true → s.armed t = false) :
    Kept s (Timer.addTimer s t) := by
  unfold Timer.addTimer
  cases hf : s.function (.timer t) with
  | false => exact ⟨⟨q, h⟩, rfl, rfl⟩
  | true => exact ⟨⟨_, h.add (ht hf) _⟩, rfl, rfl⟩

theorem Wheel.delTimer (h : Wheel s.links s.armed q) (t : Nat) : Kept s (Timer.delTimer s t).2 := by
  unfold Timer.delTimer
  rw [h.listEmpty t]
  cases ht : s.armed t with
  | false => exact ⟨⟨q, h⟩, rfl, rfl⟩
  | true =>
    obtain ⟨i, hi⟩ := (h.on t).1 ht
    exact ⟨⟨_, h.del hi⟩, rfl, rfl⟩

theorem Wheel.modTimer (h : Wheel s.links s.armed q) (t expires : Nat) : Kept s (Timer.modTimer s t expires) := by
  unfold Timer.modTimer
  dsimp only
  rw [h.listEmpty t]
  cases ht : s.armed t with
  | false => exact ⟨⟨_, h.add ht _⟩, rfl, rfl⟩
  | true =>
    obtain ⟨i, hi⟩ := (h.on t).1 ht
    have hadd := (h.del hi).add (Function.update_self ..) (slotOf expires)
    rw [Function.update_idem] at hadd
    exact ⟨⟨_, hadd⟩, rfl, rfl⟩

/-! ## Runs -/

/-- What the loop holds on to: an entry of the list it walks, or its head, and the one after it. -/
def PcWf (L : Links Node) (q : Fin 256 → List Node) : Pc → Prop
  | .idle => True
  | .walk slot _ p n => p ∈ Node.slot slot :: q slot ∧ n = L.next p
  | .fire _ _ _ => True

structure Inv (s : State) (q : Fin 256 → List Node) : Prop where
  wheel : Wheel s.links s.armed q
  pc : PcWf s.links q s.pc
  stray : s.stray = false

/-- **The condition**: `add_timer` is called on a timer that is not pending, and when a callback returns, the entry saved by
the loop is on the list it walks, or its head. -/
def StepOk (s : State) : Label → Prop
  | .call (.addTimer t) => s.function (.timer t) = true → timerPending s t = false
  | .ret => ∀ slot now n, s.pc = .fire slot now n → ∃ k, s.links.next^[k] (.slot slot) = n
  | _ => True

theorem Inv.wheelWf (h : Inv s q) : WheelWf s q := by
  refine ⟨h.wheel.lists, fun t => ?_⟩
  rw [timerPending, h.wheel.listEmpty t, Bool.not_not]
  exact h.wheel.on t

theorem Inv.init (h : machine.init s) : ∃ q, Inv s q := by
  obtain ⟨⟨q, hq⟩, harmed, hstray, hpc⟩ := h
  refine ⟨q, ⟨hq.lists, fun t => ?_, fun t ht => ?_⟩, ?_, hstray⟩
  · rw [harmed]
    exact hq.pending t
  · rw [harmed, timerPending, Bool.not_eq_false', Links.listEmpty, decide_eq_true_iff] at ht
    exact ht
  · rw [hpc]
    trivial

theorem Inv.call {c : Call} (h : Inv s q) (hok : StepOk s (.call c)) (hs : step s (.call c) = some s') :
    ∃ q, Inv s' q := by
  have hfree : (∀ slot now p n, s.pc ≠ .walk slot now p n) ∧ s' = c.run s := by
    simp only [step] at hs
    split at hs
    · cases hs
    · rename_i hno
      exact ⟨hno, (Option.some.inj hs).symm⟩
  obtain ⟨hpc, rfl⟩ := hfree
  have hk : Kept s (c.run s) := by
    cases c with
    | addTimer t =>
      refine h.wheel.addTimer fun hf => ?_
      have hp := hok hf
      rwa [timerPending, h.wheel.listEmpty t, Bool.not_not] at hp
    | delTimer t => exact h.wheel.delTimer t
    | modTimer t expires => exact h.wheel.modTimer t expires
  obtain ⟨⟨q', hq'⟩, hpc', hstray⟩ := hk
  refine ⟨q', hq', ?_, hstray.trans h.stray⟩
  rw [hpc']
  cases hs : s.pc with
  | idle => trivial
  | walk slot now p n => exact absurd hs (hpc slot now p n)
  | fire slot now n => trivial

/-- The entry after one of the list is on it, or its head. -/
theorem Wheel.next_mem (h : Wheel L armed q) (hp : p ∈ Node.slot slot :: q slot) : L.next p ∈ Node.slot slot :: q slot := by
  have hn := (h.lists.ring slot).seg.next_mem_of_mem hp
  rcases List.mem_append.1 hn with hn | hn
  · exact List.mem_cons_of_mem _ hn
  · rw [List.mem_singleton.1 hn]
    exact List.mem_cons_self

/-- **A turn of the loop** fires a timer that is armed, if any. -/
theorem Inv.turn (h : Inv s q) (hpc : s.pc = .walk slot now p n) : ∃ q, Inv (Timer.turn s slot now p n) q := by
  have hwalk := h.pc
  rw [hpc] at hwalk
  obtain ⟨hp, rfl⟩ := hwalk
  unfold Timer.turn
  by_cases hhead : p = .slot slot
  · rw [if_pos hhead]
    exact ⟨q, h.wheel, trivial, h.stray⟩
  rw [if_neg hhead]
  by_cases hyet : notYet (s.expires p) now = true
  · rw [if_pos hyet]
    exact ⟨q, h.wheel, ⟨h.wheel.next_mem hp, rfl⟩, h.stray⟩
  rw [if_neg hyet]
  have hmem : p ∈ q slot := (List.mem_cons.1 hp).resolve_left hhead
  cases p with
  | slot j => exact absurd hmem (h.wheel.lists.head_not_mem j slot)
  | timer t =>
    have hdel := h.wheel.del hmem
    have harmed : s.armed t = true := (h.wheel.on t).2 ⟨slot, hmem⟩
    dsimp only
    by_cases hf : s.function (.timer t) = true
    · rw [if_pos hf]
      refine ⟨_, hdel, trivial, ?_⟩
      simp [called, State.setArmed, harmed, h.stray]
    · -- without a callback the loop goes on with the entry after it
      rw [if_neg hf]
      refine ⟨_, hdel, ⟨?_, rfl⟩, h.stray⟩
      have hn := h.wheel.next_mem hp
      have hne : s.links.next (.timer t) ≠ .timer t := (h.wheel.lists.ring slot).next_ne hmem
      rw [Function.update_self]
      rcases List.mem_cons.1 hn with hn | hn
      · rw [hn]
        exact List.mem_cons_self
      · exact List.mem_cons_of_mem _ ((List.mem_erase_of_ne hne).2 hn)

theorem step_inv {a : Label} (h : ∃ q, Inv s q) (hok : StepOk s a) (hs : step s a = some s') : ∃ q, Inv s' q := by
  obtain ⟨q, h⟩ := h
  cases a with
  | call c => exact h.call hok hs
  | tick =>
    simp only [step] at hs
    split at hs
    · cases hs
      refine ⟨q, h.wheel, ⟨?_, rfl⟩, h.stray⟩
      exact h.wheel.next_mem List.mem_cons_self
    · cases hs
  | turn =>
    simp only [step] at hs
    split at hs
    · rename_i slot now p n hpc
      rw [← Option.some.inj hs]
      exact h.turn hpc
    · cases hs
  | ret =>
    simp only [step] at hs
    split at hs
    · rename_i slot now n hpc
      cases hs
      obtain ⟨k, hk⟩ := hok slot now n hpc
      refine ⟨q, h.wheel, ⟨?_, rfl⟩, h.stray⟩
      rw [← hk]
      exact (h.wheel.lists.ring slot).iterate_mem k
    · cases hs

/-- **Deletion, one-shot firing and the lists of the wheel**, in every run that meets the condition: no timer fires that is
not armed, and every pending timer is in exactly one slot. -/
theorem timers_of_run (l : List Label) (s s' : State) (h0 : machine.init s) (h : machine.RunOk StepOk s l s') :
    s'.stray = false ∧ ∃ q, WheelWf s' q := by
  obtain ⟨q, hq⟩ := machine.runOk_invariant (P := fun s => ∃ q, Inv s q) (fun _ _ _ hP hok hs => step_inv hP hok hs) l s s'
    (Inv.init h0) h
  exact ⟨hq.stray, q, hq.wheelWf⟩

/-- The wheel as `timers_init` leaves it, with timers that expire at tick 1 and have callbacks. -/
def boot : State where
  links := ⟨id, id⟩
  expires _ := 1
  function _ := true
  jiffies := 0
  pc := .idle
  armed _ := false
  stray := false

theorem boot_init : machine.init boot := by
  refine ⟨⟨fun _ => [], ⟨fun i => Links.ring_nil rfl rfl, fun i j h => Node.slot.inj h,
    fun _ _ => List.not_mem_nil, fun _ _ _ h => absurd h List.not_mem_nil⟩, fun t => ?_⟩, ?_, rfl, rfl⟩
  · simp [timerPending, boot, Links.listEmpty]
  · funext t
    simp [timerPending, boot, Links.listEmpty]

/-- Two timers of one tick; the callback of the first arms it again for later, in the same slot. -/
theorem timers_of_run_rearmed : ∃ s', machine.RunOk StepOk boot
    [.call (.addTimer 0), .call (.addTimer 1), .tick, .turn, .call (.modTimer 0 257), .ret, .turn, .ret, .turn, .turn] s' ∧
      s'.stray = false ∧ ∃ q, WheelWf s' q := by
  obtain ⟨s', hs⟩ : ∃ s', machine.RunOk StepOk boot
      [.call (.addTimer 0), .call (.addTimer 1), .tick, .turn, .call (.modTimer 0 257), .ret, .turn, .ret, .turn, .turn]
      s' := by
    refine ⟨_, fun _ => rfl, _, rfl, fun _ => rfl, _, rfl, trivial, _, rfl, trivial, _, rfl, trivial, _, rfl, ?_, _, rfl,
      trivial, _, rfl, ?_, _, rfl, trivial, _, rfl, trivial, _, rfl, rfl⟩
    · intro slot now n h
      cases h
      exact ⟨1, rfl⟩
    · intro slot now n h
      cases h
      exact ⟨1, rfl⟩
  exact ⟨s', hs, timers_of_run _ _ _ boot_init hs⟩

/-- **A callback deletes the timer after its own**, and it fires: the loop goes on with the entry it has saved. -/
theorem not_timers_of_run : ∃ s t : State, machine.init boot ∧
    machine.run boot [.call (.addTimer 0), .call (.addTimer 1), .tick, .turn] = some s ∧
    (delTimer s 1).1 = true ∧ machine.run s [.call (.delTimer 1), .ret, .turn] = some t ∧ t.stray = true :=
  ⟨_, _, boot_init, rfl, by decide +kernel, rfl, by decide +kernel⟩

end Timer
end Pico
