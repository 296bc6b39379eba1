import Mathlib.Logic.Function.Basic
import Picomimi.Lib.Run
/-!
# SigMask — signal masks and actions of `kernel/signal.c`

`__send_signal` says that SIGKILL and SIGSTOP can never be blocked or ignored.  `sys_rt_sigaction` records any action for
any signal, `sys_rt_sigprocmask` ORs or copies any set into the mask, `task_fork` copies the mask with the task and shares
or copies the actions, and exec clears the actions but the ignored ones.  Fork and exec keep the rule; it holds
throughout exactly while no caller asks the two calls for the opposite (`untouched_iff_runOk`).
-/
namespace Pico
namespace Signal

open Lib

def esrch : Int := 3
def einval : Int := 22

def nsig : Nat := 64
def sigkill : Nat := 9
def sigstop : Nat := 19

def sigBlock : Int := 0
def sigUnblock : Int := 1
def sigSetmask : Int := 2

/-- `SIG_DFL` and `SIG_IGN`, as the handler's address. -/
def sigDfl : Nat := 0
def sigIgn : Nat := 1

def cloneSighand : Nat := 0x800

/-- `sigset_t`, of `_NSIG_WORDS` words. -/
abbrev Sigset := Fin 2 → BitVec 64

def sigemptyset : Sigset := fun _ => 0#64

def sigorset (a b : Sigset) : Sigset := fun i => a i ||| b i

def signandset (a b : Sigset) : Sigset := fun i => a i &&& ~~~b i

def sigismember (set : Sigset) (sig : Nat) : Bool :=
  if sig < 1 ∨ nsig < sig then false
  else (set (Fin.ofNat 2 ((sig - 1) / 64))).getLsbD ((sig - 1) % 64)

/-- `struct sigaction`. -/
structure Sigaction where
  saHandler : Nat
  saFlags : BitVec 64
  saRestorer : Nat
  saMask : Sigset

/-- What `memset` leaves of an action: the default. -/
def Sigaction.zero : Sigaction := ⟨sigDfl, 0#64, 0, sigemptyset⟩

/-- `sighand_struct`; of `action` the entries below `NSIG`, which the two system calls index with the signal itself. -/
structure Sighand where
  count : Int
  action : Nat → Sigaction

def Sighand.zero : Sighand := ⟨1, fun _ => Sigaction.zero⟩

/-- What signals use of a task. -/
structure Task where
  blocked : Sigset
  sighand : Option Nat

/-- The tasks, and the `sighand_struct`s by address; `live` are the allocated ones. -/
structure State where
  task : Nat → Option Task
  hand : Nat → Sighand
  live : Nat → Bool

def State.setTask (s : State) (t : Nat) (task : Task) : State :=
  { s with task := Function.update s.task t (some task) }

def State.setHand (s : State) (x : Nat) (h : Sighand) : State := { s with hand := Function.update s.hand x h }

/-- A `kmalloc` of a `sighand_struct` that gave `x`, and what is written there. -/
def State.newHand (s : State) (x : Nat) (h : Sighand) : State :=
  { s.setHand x h with live := Function.update s.live x true }

/-! ## The writers -/

/-- `sys_rt_sigaction` of task `t`, with what is stored at `oact`; `act` is what the call reads there. -/
def sysRtSigaction (s : State) (t : Nat) (sig : Int) (act : Option Sigaction) (oact : Bool) :
    Int × Option Sigaction × State :=
  if sig ≤ 0 ∨ (nsig : Int) ≤ sig then (-einval, none, s)
  else
    match (s.task t).bind Task.sighand with
    | none => (-esrch, none, s)
    | some x =>
      let old := if oact then some ((s.hand x).action sig.toNat) else none
      match act with
      | none => (0, old, s)
      | some a => (0, old, s.setHand x { s.hand x with action := Function.update (s.hand x).action sig.toNat a })

/-- The new mask of `sys_rt_sigprocmask`, if `how` is one of its three. -/
def changeMask (how : Int) (blocked set : Sigset) : Option Sigset :=
  if how = sigBlock then some (sigorset blocked set)
  else if how = sigUnblock then some (signandset blocked set)
  else if how = sigSetmask then some set
  else none

/-- `sys_rt_sigprocmask` of task `t`, with what is stored at `oset`; `set` is what the call reads there. -/
def sysRtSigprocmask (s : State) (t : Nat) (how : Int) (set : Option Sigset) (oset : Bool) : Int × Option Sigset × State :=
  match s.task t with
  | none => (-esrch, none, s)
  | some task =>
    let old := if oset then some task.blocked else none
    match set with
    | none => (0, old, s)
    | some set =>
      match changeMask how task.blocked set with
      | none => (-einval, old, s)
      | some blocked => (0, old, s.setTask t { task with blocked := blocked })

/-- The signal structures of `task_create`; `new` is what `kmalloc` gives for the actions. -/
def taskCreate (s : State) (t : Nat) : Option Nat → State
  | none => s.setTask t ⟨sigemptyset, none⟩
  | some x => (s.newHand x Sighand.zero).setTask t ⟨sigemptyset, some x⟩

/-- The signal structures of `task_fork`: the mask goes with the task, the actions are shared or copied. -/
def taskFork (s : State) (child : Nat) (parent : Task) (cloneFlags : Nat) (new : Option Nat) : State :=
  if cloneFlags &&& cloneSighand ≠ 0 then
    match parent.sighand with
    | none => s.setTask child parent
    | some x => (s.setHand x { s.hand x with count := (s.hand x).count + 1 }).setTask child parent
  else
    match new with
    | none => s.setTask child { parent with sighand := none }
    | some y =>
      let copy := match parent.sighand with
        | some x => { s.hand x with count := 1 }
        | none => Sighand.zero
      (s.newHand y copy).setTask child { parent with sighand := some y }

/-- The loop of exec that clears every action but the ignored ones. -/
def resetActions (h : Sighand) : Sighand :=
  { h with action := fun i =>
      if i < nsig ∧ (h.action i).saHandler ≠ sigIgn then Sigaction.zero else h.action i }

/-- The signal part of exec: an ELF image gives a task without actions new ones, a Mach-O image does not. -/
def exec (s : State) (t : Nat) (task : Task) (macho : Bool) (new : Option Nat) : State :=
  match task.sighand with
  | some x => s.setHand x (resetActions (s.hand x))
  | none =>
    if macho then s
    else
      match new with
      | none => s
      | some x => (s.newHand x (resetActions Sighand.zero)).setTask t { task with sighand := some x }

inductive Label where
  | create (t : Nat) (new : Option Nat)
  | sigaction (t : Nat) (sig : Int) (act : Option Sigaction) (oact : Bool)
  | sigprocmask (t : Nat) (how : Int) (set : Option Sigset) (oset : Bool)
  | fork (t child cloneFlags : Nat) (new : Option Nat)
  | exec (t : Nat) (macho : Bool) (new : Option Nat)

/-- What `kmalloc` gives is not in use. -/
def fresh (s : State) (new : Option Nat) : Bool := new.all fun x => !s.live x

def step (s : State) : Label → Option State
  | .create t new => if (s.task t).isNone ∧ fresh s new then some (taskCreate s t new) else none
  | .sigaction t sig act oact => some (sysRtSigaction s t sig act oact).2.2
  | .sigprocmask t how set oset => some (sysRtSigprocmask s t how set oset).2.2
  | .fork t child cloneFlags new =>
    if (s.task child).isNone ∧ fresh s new then (s.task t).map fun parent => taskFork s child parent cloneFlags new
    else none
  | .exec t macho new => if fresh s new then (s.task t).map fun task => exec s t task macho new else none

/-- At the start there is no task. -/
def machine : Machine State Label where
  init s := ∀ t, s.task t = none
  step := step

/-- The two signals that can never be blocked or ignored. -/
def Special (sig : Nat) : Prop := sig = sigkill ∨ sig = sigstop

instance (sig : Nat) : Decidable (Special sig) := inferInstanceAs (Decidable (_ ∨ _))

/-- A set with neither. -/
def Clear (m : Sigset) : Prop := ∀ sig, Special sig → sigismember m sig = false

/-- Actions that are the default for both. -/
def Sighand.Default (h : Sighand) : Prop := ∀ sig, Special sig → (h.action sig).saHandler = sigDfl

def TaskOk (s : State) (task : Task) : Prop :=
  Clear task.blocked ∧ ∀ x, task.sighand = some x → (s.hand x).Default

/-- **No mask holds SIGKILL or SIGSTOP, and their actions are the default.** -/
def Untouched (s : State) : Prop := ∀ t task, s.task t = some task → TaskOk s task

/-- **The caller leaves the two signals alone**: `rt_sigaction` gives them no action but the default, and the set that
`rt_sigprocmask` blocks or takes over has neither. -/
def StepOk (s : State) : Label → Prop
  | .sigaction t sig act _ => ((s.task t).bind Task.sighand).isSome → Special sig.toNat →
      ∀ a, act = some a → a.saHandler = sigDfl
  | .sigprocmask t how set _ => (s.task t).isSome → how = sigBlock ∨ how = sigSetmask → ∀ m, set = some m → Clear m
  | _ => True

variable {s s' : State} {t x y sig : Nat} {task : Task} {h : Sighand} {m m' : Sigset}

/-! ## Sets and actions -/

theorem sigismember_or : sigismember (sigorset m m') sig = (sigismember m sig || sigismember m' sig) := by
  unfold sigismember sigorset
  split
  · rfl
  · exact BitVec.getLsbD_or

theorem sigismember_andnot : sigismember (signandset m m') sig = (sigismember m sig && !sigismember m' sig) := by
  unfold sigismember signandset
  split
  · rfl
  · have hbit : (sig - 1) % 64 < 64 := Nat.mod_lt _ (by decide)
    rw [BitVec.getLsbD_and, BitVec.getLsbD_not, decide_eq_true hbit, Bool.true_and]

theorem clear_empty : Clear sigemptyset := by
  rintro sig -
  unfold sigismember sigemptyset
  split
  · rfl
  · exact BitVec.getLsbD_zero

theorem clear_or : Clear (sigorset m m') ↔ Clear m ∧ Clear m' := by
  unfold Clear
  simp only [sigismember_or, Bool.or_eq_false_iff]
  exact ⟨fun h => ⟨fun sig hs => (h sig hs).1, fun sig hs => (h sig hs).2⟩, fun h sig hs => ⟨h.1 sig hs, h.2 sig hs⟩⟩

theorem Clear.andnot (h : Clear m) : Clear (signandset m m') := by
  intro sig hs
  rw [sigismember_andnot, h sig hs, Bool.false_and]

theorem default_zero : Sighand.zero.Default := fun _ _ => rfl

theorem Sighand.Default.reset (hd : h.Default) : (resetActions h).Default := by
  intro sig hs
  have := hd sig hs
  simp only [resetActions]
  split
  · rfl
  · exact this

/-! ## What one write keeps -/

theorem Untouched.setHand (hu : Untouched s) (hd : h.Default) : Untouched (s.setHand x h) := by
  intro t task ht
  refine ⟨(hu t task ht).1, fun y hy => ?_⟩
  simp only [State.setHand, Function.update_apply]
  split
  · exact hd
  · exact (hu t task ht).2 y hy

theorem Untouched.newHand (hu : Untouched s) (hd : h.Default) : Untouched (s.newHand x h) := hu.setHand hd

theorem Untouched.setTask (hu : Untouched s) (hok : TaskOk s task) : Untouched (s.setTask t task) := by
  intro u task' hu'
  simp only [State.setTask, Function.update_apply] at hu'
  split at hu'
  · cases hu'
    exact hok
  · exact hu u task' hu'

/-- A task whose actions have just been written. -/
theorem taskOk_newHand (hb : Clear task.blocked) (hx : task.sighand = some x) (hd : h.Default) :
    TaskOk (s.newHand x h) task := by
  refine ⟨hb, fun y hy => ?_⟩
  rw [hx] at hy
  cases hy
  simp only [State.newHand, State.setHand, Function.update_self]
  exact hd

theorem Untouched.taskCreate (hu : Untouched s) (new : Option Nat) : Untouched (taskCreate s t new) := by
  cases new with
  | none => exact hu.setTask ⟨clear_empty, fun x hx => by cases hx⟩
  | some x => exact (hu.newHand default_zero).setTask (taskOk_newHand clear_empty rfl default_zero)

/-- **A child is as untouched as its parent**, whether it shares the actions or has a copy. -/
theorem Untouched.taskFork (hu : Untouched s) (hok : TaskOk s task) (cloneFlags : Nat) (new : Option Nat) :
    Untouched (taskFork s t task cloneFlags new) := by
  unfold Signal.taskFork
  split
  · cases hx : task.sighand with
    | none => exact hu.setTask hok
    | some x =>
      have hd : Sighand.Default { s.hand x with count := (s.hand x).count + 1 } := hok.2 x hx
      refine (hu.setHand hd).setTask ⟨hok.1, fun y hy => ?_⟩
      rw [hx] at hy
      cases hy
      simp only [State.setHand, Function.update_self]
      exact hd
  · cases new with
    | none => exact hu.setTask ⟨hok.1, fun x hx => by cases hx⟩
    | some y =>
      have hd : Sighand.Default (match task.sighand with
          | some x => { s.hand x with count := 1 }
          | none => Sighand.zero) := by
        cases hx : task.sighand with
        | none => exact default_zero
        | some x => exact hok.2 x hx
      exact (hu.newHand hd).setTask (taskOk_newHand hok.1 rfl hd)

theorem Untouched.exec (hu : Untouched s) (hok : TaskOk s task) (macho : Bool) (new : Option Nat) :
    Untouched (exec s t task macho new) := by
  unfold Signal.exec
  cases hx : task.sighand with
  | some x => exact hu.setHand (hok.2 x hx).reset
  | none =>
    dsimp only
    split
    · exact hu
    · cases new with
      | none => exact hu
      | some x => exact (hu.newHand default_zero.reset).setTask (taskOk_newHand hok.1 rfl default_zero.reset)

/-! ## The two calls -/

/-- **`rt_sigaction` keeps the two actions** as they were unless it is asked to change one. -/
theorem Untouched.sigaction (hu : Untouched s) (sigNr : Int) (act : Option Sigaction) (oact : Bool)
    (hok : StepOk s (.sigaction t sigNr act oact)) : Untouched (sysRtSigaction s t sigNr act oact).2.2 := by
  unfold sysRtSigaction
  split
  · exact hu
  · cases hx : (s.task t).bind Task.sighand with
    | none => exact hu
    | some x =>
      cases act with
      | none => exact hu
      | some a =>
        obtain ⟨task, ht, hx'⟩ := Option.bind_eq_some_iff.1 hx
        refine hu.setHand fun sig hs => ?_
        simp only [Function.update_apply]
        split
        · rename_i heq
          exact hok (by rw [hx]; rfl) (heq ▸ hs) a rfl
        · exact (hu t task ht).2 x hx' sig hs

theorem Untouched.sigprocmask (hu : Untouched s) (how : Int) (set : Option Sigset) (oset : Bool)
    (hok : StepOk s (.sigprocmask t how set oset)) : Untouched (sysRtSigprocmask s t how set oset).2.2 := by
  unfold sysRtSigprocmask
  cases ht : s.task t with
  | none => exact hu
  | some task =>
    cases set with
    | none => exact hu
    | some m =>
      have htask := hu t task ht
      have hclear : how = sigBlock ∨ how = sigSetmask → Clear m := fun hhow => hok (by rw [ht]; rfl) hhow m rfl
      dsimp only
      cases hm : changeMask how task.blocked m with
      | none => exact hu
      | some blocked =>
        refine hu.setTask ⟨?_, htask.2⟩
        unfold changeMask at hm
        split at hm
        · cases hm
          exact clear_or.2 ⟨htask.1, hclear (.inl ‹_›)⟩
        · split at hm
          · cases hm
            exact htask.1.andnot
          · split at hm
            · cases hm
              exact hclear (.inr ‹_›)
            · cases hm

/-- **One step of a caller that leaves the two signals alone.** -/
theorem Untouched.step {a : Label} (hu : Untouched s) (hst : step s a = some s') (hok : StepOk s a) : Untouched s' := by
  cases a with
  | create t new =>
    simp only [Signal.step] at hst
    split at hst
    · cases hst
      exact hu.taskCreate new
    · cases hst
  | sigaction t sigNr act oact =>
    cases hst
    exact hu.sigaction sigNr act oact hok
  | sigprocmask t how set oset =>
    cases hst
    exact hu.sigprocmask how set oset hok
  | fork t child cloneFlags new =>
    simp only [Signal.step] at hst
    split at hst
    · obtain ⟨parent, hp, rfl⟩ := Option.map_eq_some_iff.1 hst
      exact hu.taskFork (hu t parent hp) cloneFlags new
    · cases hst
  | exec t macho new =>
    simp only [Signal.step] at hst
    split at hst
    · obtain ⟨task, ht, rfl⟩ := Option.map_eq_some_iff.1 hst
      exact hu.exec (hu t task ht) macho new
    · cases hst

/-- **A caller that does not leave them alone is not stopped**: the state after its call has the rule broken. -/
theorem stepOk_of_untouched {a : Label} (hst : step s a = some s') (hu : Untouched s') : StepOk s a := by
  cases a with
  | sigaction t sigNr act oact =>
    rintro hsome hs a rfl
    obtain ⟨x, hx⟩ := Option.isSome_iff_exists.1 hsome
    obtain ⟨task, ht, hx'⟩ := Option.bind_eq_some_iff.1 hx
    have hrange : ¬(sigNr ≤ 0 ∨ (nsig : Int) ≤ sigNr) := by
      unfold Special sigkill sigstop at hs
      unfold nsig
      omega
    simp only [Signal.step, sysRtSigaction, if_neg hrange, hx] at hst
    cases hst
    have := (hu t task ht).2 x hx' _ hs
    simp only [State.setHand, Function.update_self] at this
    exact this
  | sigprocmask t how set oset =>
    rintro hsome hhow m rfl
    obtain ⟨task, ht⟩ := Option.isSome_iff_exists.1 hsome
    obtain ⟨blocked, hm, himp⟩ : ∃ blocked, changeMask how task.blocked m = some blocked ∧ (Clear blocked → Clear m) := by
      rcases hhow with rfl | rfl
      · exact ⟨_, rfl, fun h => (clear_or.1 h).2⟩
      · exact ⟨_, rfl, id⟩
    simp only [Signal.step, sysRtSigprocmask, ht, hm] at hst
    cases hst
    exact himp (hu t { task with blocked := blocked } (Function.update_self ..)).1
  | create t new => trivial
  | fork t child cloneFlags new => trivial
  | exec t macho new => trivial

/-- **SIGKILL and SIGSTOP stay untouched in a run exactly while every caller leaves them alone.** -/
theorem untouched_iff_runOk (l : List Label) (s s' : State) (h0 : machine.init s) (h : machine.run s l = some s') :
    machine.Always Untouched s l ↔ machine.RunOk StepOk s l s' := by
  have hinit : Untouched s := fun t task ht => by
    rw [h0 t] at ht
    cases ht
  exact machine.always_iff_runOk (fun _ hu => hu) (fun _ _ _ hu hst hok => hu.step hst hok)
    (fun _ _ _ _ hst hu => stepOk_of_untouched hst hu) l s s' hinit h

/-- Nobody is there. -/
def empty : State := ⟨fun _ => none, fun _ => Sighand.zero, fun _ => false⟩

/-- The set with SIGALRM alone. -/
def onlyAlarm : Sigset := fun i => if i = 0 then 0x2000#64 else 0#64

/-- A task ignores SIGALRM and blocks it, and has a child and a thread. -/
def calls : List Label :=
  [.create 1 (some 100), .sigaction 1 14 (some { Sigaction.zero with saHandler := sigIgn }) true,
    .sigprocmask 1 sigBlock (some onlyAlarm) true, .fork 1 2 0 (some 101), .fork 1 3 cloneSighand none,
    .exec 2 false none]

theorem untouched_iff_runOk_calls : ∃ s', machine.run empty calls = some s' ∧
    (machine.Always Untouched empty calls ↔ machine.RunOk StepOk empty calls s') := by
  have hrun : (machine.run empty calls).isSome = true := by decide +kernel
  obtain ⟨s', h⟩ := Option.isSome_iff_exists.1 hrun
  exact ⟨s', h, untouched_iff_runOk calls empty s' (fun _ => rfl) h⟩

/-- **A task can ignore SIGKILL**: the call is not refused. -/
theorem not_untouched_ignored : ¬∀ (l : List Label) (s s' : State), machine.init s → machine.run s l = some s' →
    Untouched s' := by
  intro hall
  have hrun : (machine.run empty [.create 1 (some 100),
      .sigaction 1 9 (some { Sigaction.zero with saHandler := sigIgn }) false]).map (fun s =>
        ((s.task 1).bind Task.sighand, ((s.hand 100).action sigkill).saHandler)) = some (some 100, sigIgn) := by
    decide +kernel
  obtain ⟨s', hs', heq⟩ := Option.map_eq_some_iff.1 hrun
  obtain ⟨hx, hign⟩ := Prod.mk.inj heq
  obtain ⟨task, ht, hx⟩ := Option.bind_eq_some_iff.1 hx
  have := (hall _ _ s' (fun _ => rfl) hs' 1 task ht).2 100 hx sigkill (.inl rfl)
  rw [hign] at this
  cases this

end Signal
end Pico
