import Picomimi.Futex
import Picomimi.PipeWait
import Picomimi.Select
import Picomimi.SigMask
import Picomimi.WaitLaw
/-!
# Interrupt — a blocked signal and the calls that can be interrupted

`send_signal` sets a bit and wakes a task that sleeps in `TASK_INTERRUPTIBLE`; `signal_pending`, which six blocking calls
ask, is whether any bit is set.  Neither looks at the mask: `recalc_sigpending` computes what is not blocked and drops it.
A call runs here step by step among the steps of everything else, and is compared with the same call when the blocked
signals are not sent; `unmoved_iff_runOk` says when they agree.
-/
namespace Pico
namespace Interrupt

open Lib Lib.Slist
open PipeWait (Call)
open Signal (Sigset nsig sigismember signandset)

def einval : Int := 22
def efault : Int := 14
def eagain : Int := 11
def echild : Int := 10
def eintr : Int := 4
def etimedout : Int := 110

def nsecPerSec : Nat := 1000000000
def nsecPerJiffie : Nat := nsecPerSec / 100

/-- What the calls work on: a pipe, the tasks and their children, user memory with the futex table, and the open files. -/
structure World where
  pipe : Pipe.PipeInode
  tasks : WaitLaw.State
  mem : Nat → Nat
  futexHash : Slist Nat Nat
  waiters : Nat → Futex.Waiter
  file : Nat → Option Select.File
  jiffies : Nat

/-- What a call gives back, with what it stores for its caller. -/
inductive Ret where
  | pipe (r : Pipe.Ret)
  | wait4 (ret : Int) (wstatus : Option (BitVec 32)) (ru : Option WaitLaw.Rusage)
  | nanosleep (ret : Int) (rem : Option (Nat × Nat))
  | futex (ret : Int)
  | select (ret : Int) (s : Select.Sets)

/-- The blocking calls; `rem` is whether that pointer is not NULL. -/
inductive Op where
  | pipeRead (count : Nat) (nonblock : Bool)
  | pipeWrite (buf : List UInt8) (nonblock : Bool)
  | wait4 (w : WaitLaw.Call)
  | nanosleep (req : Option (Int × Int)) (rem : Bool)
  | futexWait (uaddr val : Nat) (timeout : Option (Int × Int))
  | select (nfds : Int) (s : Select.Sets) (timeout : Option (Int × Int))

/-- Where a call is. -/
inductive Pc where
  | call (op : Op)
  | top (c : Call)                       -- a turn of the loop of `pipe_read` or `pipe_write`
  | pipeSleep (c : Call)
  | relock (c : Call)
  | pipeTest (c : Call)
  | waitTop (w : WaitLaw.Call)           -- the loop of `do_wait`, and its scan from `pos` on
  | scan (w : WaitLaw.Call) (pos : WaitLaw.Node) (found : Bool)
  | waitTest (w : WaitLaw.Call)
  | waitSleep (w : WaitLaw.Call)
  | nanosleep (rem : Bool) (deadline : Nat)
  | nanosleepTest (rem : Bool) (deadline : Nat)
  | futexNext (uaddr val : Nat) (timeout : Option (Int × Int))
  | futexHead (uaddr val : Nat) (timeout : Option (Int × Int))
  | futexLoop (uaddr val deadline : Nat)
  | futexTest (uaddr val deadline : Nat)
  | futexLate (uaddr val deadline : Nat)
  | unlink (pp : Loc Nat Nat) (ret : Int)
  | select (nfds fd : Nat) (acc : Nat × Select.Sets) (deadline : Option Nat)
  | selectTest (nfds : Nat) (s : Select.Sets) (deadline : Option Nat)

/-- The task runs, is inside `schedule` with `TASK_INTERRUPTIBLE` stored before, or has returned. -/
inductive Place where
  | run (p : Pc)
  | asleep (p : Pc)
  | ret (r : Ret)

/-- What comes next: a section of the code, `if (signal_pending(me))` with its two branches, or
`me->state = TASK_INTERRUPTIBLE; schedule();`. -/
inductive Act where
  | look (f : World → World × Place)
  | test (yes no : World → World × Place)
  | sleep (p : Pc)

/-! ## `pipe_read` and `pipe_write` -/

/-- A turn, when the lock is free.  `pipe_wait` links the task into a queue, where the waker finds it. -/
def pipeTop (c : Call) (w : World) : World × Place :=
  if w.pipe.lock.isSome then (w, .run (.top c))
  else
    match c with
    | .read count nonblock =>
      match Pipe.pipeReadTurn w.pipe count nonblock with
      | (pi, .ret r) => ({ w with pipe := pi }, .ret (.pipe r))
      | (pi, .go _) => ({ w with pipe := pi }, .run (.pipeSleep c))
    | .write buf written nonblock =>
      match Pipe.pipeWriteTurn w.pipe buf written nonblock with
      | (pi, _, .ret r) => ({ w with pipe := pi }, .ret (.pipe r))
      | (pi, n, .go (.writeTop _ _ _)) => ({ w with pipe := pi }, .run (.top (.write buf (written + n) nonblock)))
      | (pi, _, .go _) => ({ w with pipe := pi }, .run (.pipeSleep c))

/-- `spin_lock(pipe_lock)` after `schedule`. -/
def pipeRelock (t : Nat) (c : Call) (w : World) : World × Place :=
  if w.pipe.lock.isSome then (w, .run (.relock c))
  else ({ w with pipe := { w.pipe with lock := some t } }, .run (.pipeTest c))

def pipeUnlock (w : World) : World := { w with pipe := { w.pipe with lock := none } }

/-- `pipe_wait` returns `-EINTR`. -/
def pipeInterrupted (c : Call) (w : World) : World × Place :=
  match c with
  | .read _ _ => (pipeUnlock w, .ret (.pipe (.read [] (-eintr))))
  | .write buf written _ => (pipeUnlock w, .ret (.pipe (.write buf (Pipe.shortRet written eintr) false)))

/-- `pipe_wait` returns 0; `pipe_write` goes on with the lock held. -/
def pipeGoOn (c : Call) (w : World) : World × Place :=
  match c with
  | .read _ _ => (pipeUnlock w, .run (.top c))
  | .write _ _ _ => (w, .run (.top c))

/-! ## `wait4` -/

/-- The children from `pos` on, one at a time. -/
def waitScan (t : Nat) (call : WaitLaw.Call) (pos : WaitLaw.Node) (found : Bool) (w : World) : World × Place :=
  if pos = .children t then
    if !found then (w, .ret (.wait4 (-echild) none none))
    else if call.has Wait.wnohang then (w, .ret (.wait4 0 none none))
    else (w, .run (.waitTest call))
  else
    match pos with
    | .sibling c =>
      match WaitLaw.visit w.tasks t call c with
      | some ⟨some ret, wstatus, ru, tasks, _⟩ => ({ w with tasks := tasks }, .ret (.wait4 ret wstatus ru))
      | _ => (w, .run (.scan call (w.tasks.links.next pos) (found ||
          Wait.taskMatchesPid (w.tasks.task c).toChild (w.tasks.task t).pgrp call.pid)))
    | _ => (w, .run (.scan call pos found))          -- no list

/-! ## `nanosleep` -/

def ticksOf (sec nsec : Int) : Nat :=
  add64 ((sec * nsecPerSec + nsec) % (word64 : Int)).toNat (nsecPerJiffie - 1) / nsecPerJiffie

def nanosleepEntry (req : Option (Int × Int)) (rem : Bool) (w : World) : World × Place :=
  match req with
  | none => (w, .ret (.nanosleep (-efault) none))
  | some (sec, nsec) =>
    if nsec < 0 ∨ (nsecPerSec : Int) ≤ nsec then (w, .ret (.nanosleep (-einval) none))
    else if ticksOf sec nsec = 0 then (w, .ret (.nanosleep 0 none))
    else (w, .run (.nanosleep rem (add64 w.jiffies (ticksOf sec nsec))))

/-- `while ((s64)(deadline - jiffies) > 0)`. -/
def nanosleepLoop (rem : Bool) (deadline : Nat) (w : World) : World × Place :=
  let left := sub64 deadline w.jiffies
  if 0 < left ∧ left < 9223372036854775808 then (w, .run (.nanosleepTest rem deadline))
  else (w, .ret (.nanosleep 0 (if rem then some (0, 0) else none)))

def nanosleepInterrupted (rem : Bool) (deadline : Nat) (w : World) : World × Place :=
  let left := sub64 deadline w.jiffies * nsecPerJiffie % word64
  (w, .ret (.nanosleep (-eintr) (if rem then some (left / nsecPerSec, left % nsecPerSec) else none)))

/-! ## `FUTEX_WAIT` -/

/-- Up to the record; its task is `t`. -/
def futexEntry (t uaddr val : Nat) (timeout : Option (Int × Int)) (w : World) : World × Place :=
  if uaddr = 0 then (w, .ret (.futex (-efault)))
  else if w.mem uaddr ≠ val then (w, .ret (.futex (-eagain)))
  else
    ({ w with
      futexHash := w.futexHash.write (.next t) none
      waiters := Function.update w.waiters t ⟨uaddr, val⟩ }, .run (.futexNext uaddr val timeout))

/-- The loop that takes the record out begins. -/
def leave (uaddr : Nat) (ret : Int) : Place := .run (.unlink (.head (Futex.futexHashKey uaddr)) ret)

def futexUnlink (t : Nat) (pp : Loc Nat Nat) (ret : Int) (w : World) : World × Place :=
  match w.futexHash.read pp with
  | none => (w, .ret (.futex ret))
  | some x =>
    if x = t then ({ w with futexHash := w.futexHash.write pp (w.futexHash.next x) }, .ret (.futex ret))
    else (w, .run (.unlink (.next x) ret))

/-! ## `select` -/

def World.select (w : World) : Select.World := ⟨w.file, w.jiffies, false⟩

/-- The `for` loop, one descriptor at a time, and what follows up to the test for a signal. -/
def selectTurn (nfds fd : Nat) (acc : Nat × Select.Sets) (deadline : Option Nat) (w : World) : World × Place :=
  if fd < nfds then (w, .run (.select nfds (fd + 1) (Select.visit w.select acc fd) deadline))
  else if 0 < acc.1 then (w, .ret (.select acc.1 acc.2))
  else if Select.timedOut w.select deadline then (w, .ret (.select 0 acc.2))
  else (w, .run (.selectTest nfds acc.2 deadline))

/-! ## The calls -/

/-- A call up to its loop. -/
def entry (t : Nat) : Op → World → World × Place
  | .pipeRead count nonblock, w =>
    (w, if count = 0 then .ret (.pipe (.read [] 0)) else .run (.top (.read count nonblock)))
  | .pipeWrite buf nonblock, w =>
    (w, if buf.length = 0 then .ret (.pipe (.write buf 0 false))
      else if w.pipe.readers = 0 then .ret (.pipe (.write buf (-Pipe.epipe) true))
      else .run (.top (.write buf 0 nonblock)))
  | .wait4 call, w => (w, .run (.waitTop call))
  | .nanosleep req rem, w => nanosleepEntry req rem w
  | .futexWait uaddr val timeout, w => futexEntry t uaddr val timeout w
  | .select nfds s timeout, w =>
    (w, if nfds < 0 ∨ 1024 < nfds then .ret (.select (-einval) s)
      else .run (.select nfds.toNat 0 (0, s) (Select.deadlineOf w.jiffies timeout)))

/-- What task `t` does where it is.  The calls that yield and do not sleep (`hlt`, `schedule()` in `TASK_RUNNING`) go
round their loops. -/
def act (t : Nat) : Pc → Act
  | .call op => .look (entry t op)
  | .top c => .look (pipeTop c)
  | .pipeSleep c => .sleep (.relock c)
  | .relock c => .look (pipeRelock t c)
  | .pipeTest c => .test (pipeInterrupted c) (pipeGoOn c)
  | .waitTop call => .look fun w => (w, .run (.scan call (w.tasks.links.next (.children t)) false))
  | .scan call pos found => .look (waitScan t call pos found)
  | .waitTest call => .test (fun w => (w, .ret (.wait4 (-eintr) none none))) fun w => (w, .run (.waitSleep call))
  | .waitSleep call => .sleep (.waitTop call)
  | .nanosleep rem deadline => .look (nanosleepLoop rem deadline)
  | .nanosleepTest rem deadline =>
    .test (nanosleepInterrupted rem deadline) fun w => (w, .run (.nanosleep rem deadline))
  | .futexNext uaddr val timeout => .look fun w =>
    ({ w with futexHash := w.futexHash.write (.next t) (w.futexHash.head (Futex.futexHashKey uaddr)) },
      .run (.futexHead uaddr val timeout))
  | .futexHead uaddr val timeout => .look fun w =>
    ({ w with futexHash := w.futexHash.write (.head (Futex.futexHashKey uaddr)) (some t) },
      .run (.futexLoop uaddr val (Futex.deadlineOf w.jiffies timeout)))
  | .futexLoop uaddr val deadline => .look fun w =>
    (w, if w.mem uaddr = val then .run (.futexTest uaddr val deadline) else leave uaddr 0)
  | .futexTest uaddr val deadline =>
    .test (fun w => (w, leave uaddr (-eintr))) fun w => (w, .run (.futexLate uaddr val deadline))
  | .futexLate uaddr val deadline => .look fun w =>
    (w, if Futex.late w.jiffies deadline then leave uaddr (-etimedout) else .run (.futexLoop uaddr val deadline))
  | .unlink pp ret => .look (futexUnlink t pp ret)
  | .select nfds fd acc deadline => .look (selectTurn nfds fd acc deadline)
  | .selectTest nfds s deadline =>
    .test (fun w => (w, .ret (.select (-eintr) s))) fun w => (w, .run (.select nfds 0 (0, s) deadline))

/-! ## The task among the others -/

/-- What `send_signal` and `signal_pending` use of the task, where it is, and the world. -/
structure State where
  world : World
  pending : Sigset
  blocked : Sigset
  interruptible : Bool
  place : Place

/-- The places of `sig[0]` and `sig[1]` in a set. -/
def sig0 : Fin 2 := ⟨0, Nat.zero_lt_two⟩
def sig1 : Fin 2 := ⟨1, Nat.one_lt_two⟩

def signalPending (pending : Sigset) : Bool := pending sig0 ≠ 0#64 || pending sig1 ≠ 0#64

/-- The bit that `send_signal` sets. -/
def setPending (pending : Sigset) (sig : Nat) : Sigset :=
  if sig ≤ 64 then Function.update pending sig0 (pending sig0 ||| 1#64 <<< (sig - 1))
  else Function.update pending sig1 (pending sig1 ||| 1#64 <<< (sig - 65))

/-- `send_signal` to the task; `wake_up_process` is one store, `TASK_RUNNING`, and the scheduler's. -/
def sendSignal (s : State) (sig : Int) : State :=
  if sig < 1 ∨ (nsig : Int) < sig then s
  else { s with pending := setPending s.pending sig.toNat, interruptible := false }

/-- The task's next step, if it does not sleep. -/
def turn (t : Nat) (s : State) : State :=
  match s.place with
  | .ret _ => s
  | .asleep p => if s.interruptible then s else { s with place := .run p }
  | .run p =>
    match act t p with
    | .look f => { s with world := (f s.world).1, place := (f s.world).2 }
    | .sleep p => { s with interruptible := true, place := .asleep p }
    | .test yes no =>
      if signalPending s.pending then { s with world := (yes s.world).1, place := (yes s.world).2 }
      else { s with world := (no s.world).1, place := (no s.world).2 }

/-- A step: of the task, of anything else that works on the world, a wakeup by other than a signal, or a signal. -/
inductive Label where
  | turn
  | env (f : World → World)
  | wake
  | send (sig : Int)

def step (t : Nat) (s : State) : Label → State
  | .turn => turn t s
  | .env f => { s with world := f s.world }
  | .wake => { s with interruptible := false }
  | .send sig => sendSignal s sig

/-- A task that has just made a call, whatever else. -/
def machine (t : Nat) : Machine State Label where
  init s := ∃ op, s.place = .run (.call op)
  step s a := some (step t s a)

def exec (t : Nat) (s : State) (l : List Label) : State := l.foldl (step t) s

/-- The step sends a signal that is in the mask. -/
def sendsBlocked (blocked : Sigset) : Label → Bool
  | .send sig => sigismember blocked sig.toNat
  | _ => false

/-- The task without the blocked signals it has been sent before. -/
def State.calm (s : State) : State := { s with pending := signandset s.pending s.blocked }

/-- The steps without those that send a blocked signal. -/
def unsent (s : State) (l : List Label) : List Label := l.filter fun a => !sendsBlocked s.blocked a

/-- **The task is where it is in the other run**: in the same place, with the same result when it has returned, asleep or
not, in the same world; what is pending differs in blocked signals only. -/
structure Same (s u : State) : Prop where
  place : u.place = s.place
  world : u.world = s.world
  interruptible : u.interruptible = s.interruptible
  blocked : u.blocked = s.blocked
  pending : u.pending = signandset s.pending s.blocked

/-- **A blocked signal is not an interruption**: at every moment the run is where it is with the blocked signals never
sent. -/
def Unmoved (t : Nat) (s : State) (l : List Label) : Prop :=
  ∀ l', l' <+: l → Same (exec t s l') (exec t s.calm (unsent s l'))

def Act.isTest : Act → Bool
  | .test _ _ => true
  | _ => false

/-- **No blocked signal is noticed**: where the task asks for a signal, one is pending that is not blocked, or none is;
and no blocked one is sent while its state is `TASK_INTERRUPTIBLE`. -/
def Quiet (t : Nat) (s : State) : Label → Prop
  | .turn => ∀ p, s.place = .run p → (act t p).isTest = true → signalPending s.pending = true →
      signalPending (signandset s.pending s.blocked) = true
  | .send sig => sigismember s.blocked sig.toNat = true → s.interruptible = false
  | _ => True

variable {t sig : Nat} {s u : State} {a : Label} {p : Pc} {pending blocked : Sigset}

/-! ## Sets of signals -/

/-- One bit, without the bits of a mask. -/
theorem bit_andnot {k : Nat} (b : BitVec 64) (hk : k < 64) :
    1#64 <<< k &&& ~~~b = if b.getLsbD k then 0#64 else 1#64 <<< k := by
  refine BitVec.eq_of_getLsbD_eq fun i hi => ?_
  have hbit : (1#64 <<< k).getLsbD i = decide (i = k) := by
    rw [BitVec.getLsbD_shiftLeft, BitVec.getLsbD_one]
    by_cases hik : i = k
    · simp [hik, hk]
    · simp only [hik, decide_false, Bool.and_eq_false_iff]
      grind
  rw [BitVec.getLsbD_and, BitVec.getLsbD_not, decide_eq_true hi, Bool.true_and, hbit]
  by_cases hik : i = k
  · subst hik
    cases hb : b.getLsbD i <;> simp [hbit]
  · split <;> simp [hbit, hik]

theorem or_bit_andnot {k : Nat} (a b : BitVec 64) (hk : k < 64) :
    (a ||| 1#64 <<< k) &&& ~~~b = if b.getLsbD k then a &&& ~~~b else a &&& ~~~b ||| 1#64 <<< k := by
  have hdist : (a ||| 1#64 <<< k) &&& ~~~b = a &&& ~~~b ||| 1#64 <<< k &&& ~~~b := by
    refine BitVec.eq_of_getLsbD_eq fun i hi => ?_
    simp only [BitVec.getLsbD_and, BitVec.getLsbD_or, Bool.and_or_distrib_right]
  rw [hdist, bit_andnot b hk]
  split
  · exact BitVec.or_zero
  · rfl

/-- **A signal that is sent**, outside the mask: its bit, or nothing if it is in the mask. -/
theorem setPending_andnot (pending blocked : Sigset) (h1 : 1 ≤ sig) (h64 : sig ≤ nsig) : signandset (setPending pending sig) blocked =
    if sigismember blocked sig then signandset pending blocked else setPending (signandset pending blocked) sig := by
  have hk : sig - 1 < 64 := by
    have : sig ≤ 64 := h64
    omega
  have hmem : sigismember blocked sig = (blocked sig0).getLsbD (sig - 1) := by
    unfold sigismember
    rw [if_neg (by omega), Nat.div_eq_of_lt hk, Nat.mod_eq_of_lt hk]
    rfl
  rw [hmem, setPending, setPending, if_pos (show sig ≤ 64 from h64), if_pos (show sig ≤ 64 from h64)]
  have hword := or_bit_andnot (pending sig0) (blocked sig0) hk
  funext i
  by_cases hi : i = sig0
  · subst hi
    simp only [signandset, Function.update_self, hword]
    split
    · rfl
    · rw [Function.update_self]
  · simp only [signandset, Function.update_of_ne hi]
    split
    · rfl
    · rw [Function.update_of_ne hi]
      rfl

theorem signalPending_of_andnot (h : signalPending (signandset pending blocked) = true) :
    signalPending pending = true := by
  by_contra hno
  simp only [signalPending, Bool.or_eq_true, decide_eq_true_eq, not_or, not_not] at hno
  simp [signalPending, signandset, hno.1, hno.2] at h

/-! ## Two runs -/

/-- The two branches of a test lead to different places. -/
theorem test_ne {yes no : World → World × Place} (h : act t p = .test yes no) (w : World) : (yes w).2 ≠ (no w).2 := by
  cases p with
  | pipeTest c =>
    cases h
    cases c <;> exact fun he => by cases he
  | waitTest _ => cases h; exact fun he => by cases he
  | nanosleepTest _ _ => cases h; exact fun he => by cases he
  | futexTest _ _ _ => cases h; exact fun he => by cases he
  | selectTest _ _ _ => cases h; exact fun he => by cases he
  | _ => cases h

theorem blocked_step (t : Nat) (s : State) (a : Label) : (step t s a).blocked = s.blocked := by
  cases a with
  | turn =>
    simp only [step, turn]
    split
    · rfl
    · split <;> rfl
    · split
      · rfl
      · rfl
      · split <;> rfl
  | send sig =>
    simp only [step, sendSignal]
    split <;> rfl
  | _ => rfl

theorem same_iff : Same s u ↔ u = s.calm := by
  constructor
  · rintro ⟨h1, h2, h3, h4, h5⟩
    cases u
    simp only [State.calm]
    congr
  · rintro rfl
    exact ⟨rfl, rfl, rfl, rfl, rfl⟩

/-- A test that has nothing to notice. -/
theorem turn_calm (hq : Quiet t s .turn) : turn t s.calm = (turn t s).calm := by
  cases hp : s.place with
  | ret r => simp only [turn, State.calm, hp]
  | asleep p => cases hi : s.interruptible <;> simp [turn, State.calm, hp, hi]
  | run p =>
    cases hact : act t p with
    | look f => simp only [turn, State.calm, hp, hact]
    | sleep q => simp only [turn, State.calm, hp, hact]
    | test yes no =>
      have hsame : signalPending (signandset s.pending s.blocked) = signalPending s.pending := by
        cases hpend : signalPending s.pending with
        | true => exact hq p hp (by rw [hact]; rfl) hpend
        | false => exact Bool.eq_false_iff.2 fun h => Bool.false_ne_true (hpend.symm.trans (signalPending_of_andnot h))
      simp only [turn, State.calm, hp, hact, hsame]
      split <;> rfl

/-- A signal that is not blocked is sent in both runs. -/
theorem sendSignal_calm {n : Int} (hb : sigismember s.blocked n.toNat = false) :
    sendSignal s.calm n = (sendSignal s n).calm := by
  unfold sendSignal
  split
  · rfl
  · rename_i hn
    have hset := setPending_andnot s.pending s.blocked (show 1 ≤ n.toNat by omega)
      (show n.toNat ≤ nsig by omega)
    rw [hb, if_neg Bool.false_ne_true] at hset
    simp only [State.calm, hset]

/-- One that is blocked makes no difference to a task that is awake. -/
theorem calm_sendSignal {n : Int} (hb : sigismember s.blocked n.toNat = true) (hi : s.interruptible = false) :
    s.calm = (sendSignal s n).calm := by
  unfold sendSignal
  split
  · rfl
  · rename_i hn
    have hset := setPending_andnot s.pending s.blocked (show 1 ≤ n.toNat by omega)
      (show n.toNat ≤ nsig by omega)
    rw [hb, if_pos rfl] at hset
    simp only [State.calm, hset, hi]

/-- The other run's step. -/
def other (t : Nat) (s u : State) (a : Label) : State := if sendsBlocked s.blocked a then u else step t u a

/-- **A step that notices no blocked signal** leaves the task where it is in the other run. -/
theorem Same.step (h : Same s u) (hq : Quiet t s a) : Same (Interrupt.step t s a) (other t s u a) := by
  rw [same_iff] at h ⊢
  subst h
  cases a with
  | env f => rfl
  | wake => rfl
  | turn => exact turn_calm hq
  | send n =>
    cases hb : sigismember s.blocked n.toNat with
    | true =>
      simp only [other, sendsBlocked, hb, if_true]
      exact calm_sendSignal hb (hq hb)
    | false =>
      simp only [other, sendsBlocked, hb]
      exact sendSignal_calm hb

/-- **After a step that notices one, it is elsewhere.** -/
theorem Same.quiet (h : Same s u) (h' : Same (Interrupt.step t s a) (other t s u a)) : Quiet t s a := by
  obtain rfl := same_iff.1 h
  cases a with
  | env f => trivial
  | wake => trivial
  | turn =>
    intro p hp htest hpend
    by_contra hno
    cases hact : act t p with
    | look f => rw [hact] at htest; cases htest
    | sleep q => rw [hact] at htest; cases htest
    | test yes no =>
      have hplace : (turn t s.calm).place = (turn t s).place := h'.place
      have hyes : (turn t s).place = (yes s.world).2 := by simp only [turn, hp, hact, if_pos hpend]
      have hno' : (turn t s.calm).place = (no s.world).2 := by simp only [turn, State.calm, hp, hact, if_neg hno]
      rw [hyes, hno'] at hplace
      exact test_ne hact s.world hplace.symm
  | send n =>
    intro hb
    have hn : ¬(n < 1 ∨ (nsig : Int) < n) := fun hn => by
      have hout : n.toNat < 1 ∨ nsig < n.toNat := by omega
      rw [sigismember, if_pos hout] at hb
      cases hb
    have hint := h'.interruptible
    simp only [other, sendsBlocked, hb, if_true, Interrupt.step, sendSignal, if_neg hn] at hint
    exact hint

/-- The first step of both runs. -/
theorem exec_unsent_cons (l : List Label) :
    exec t u (unsent s (a :: l)) = exec t (other t s u a) (unsent (step t s a) l) := by
  simp only [unsent, blocked_step, List.filter_cons, other]
  cases sendsBlocked s.blocked a <;> rfl

/-- **The two runs agree throughout exactly when no step notices a blocked signal.** -/
theorem same_iff_runOk : ∀ {l : List Label} {s u : State}, Same s u →
    ((∀ l', l' <+: l → Same (exec t s l') (exec t u (unsent s l'))) ↔ (machine t).RunOk (Quiet t) s l (exec t s l))
  | [], s, u, h => by
    refine iff_of_true (fun l' hl => ?_) rfl
    rw [List.prefix_nil.1 hl]
    exact h
  | a :: l, s, u, h => by
    constructor
    · intro hall
      have hone := hall [a] (List.cons_prefix_cons.2 ⟨rfl, List.nil_prefix⟩)
      rw [exec_unsent_cons] at hone
      refine ⟨h.quiet hone, _, rfl, (same_iff_runOk hone).1 fun l' hl => ?_⟩
      have := hall (a :: l') (List.cons_prefix_cons.2 ⟨rfl, hl⟩)
      rwa [exec_unsent_cons] at this
    · rintro ⟨hq, v, hv, hrest⟩ l' hl
      cases hv
      cases l' with
      | nil => exact h
      | cons b l' =>
        obtain ⟨rfl, hl'⟩ := List.cons_prefix_cons.1 hl
        rw [exec_unsent_cons]
        exact (same_iff_runOk (h.step hq)).2 hrest l' hl'

/-- **A blocked signal is not an interruption exactly when no step notices one.** -/
theorem unmoved_iff_runOk (t : Nat) (s : State) (l : List Label) :
    Unmoved t s l ↔ (machine t).RunOk (Quiet t) s l (exec t s l) :=
  same_iff_runOk ⟨rfl, rfl, rfl, rfl, rfl⟩

/-- Task 1 reads from an empty pipe with a writer; it has signal 10 in its mask. -/
def reader : State where
  world :=
    { pipe := ⟨⟨fun _ => 0, 4096, 0, 0, 0⟩, 1, 1, none⟩
      tasks :=
        { task := fun c => ⟨⟨c, c, none, .running, false, .alive⟩, 0#32, 0#32, 0, 0, none, false⟩
          links := ⟨id, id⟩ }
      mem := fun _ => 0
      futexHash := ⟨fun _ => none, fun _ => none⟩
      waiters := fun _ => ⟨0, 0⟩
      file := fun _ => none
      jiffies := 0 }
  pending := Signal.sigemptyset
  blocked := setPending Signal.sigemptyset 10
  interruptible := false
  place := .run (.call (.pipeRead 1 false))

/-- It sleeps, is sent signal 10, and then a byte is written. -/
def interrupted : List Label :=
  [.turn, .turn, .turn, .send 10, .turn, .turn, .turn,
    .env fun w => { w with pipe := { w.pipe with buf := (Pipe.pbufWrite w.pipe.buf [7]).1 } }, .wake,
    .turn, .turn, .turn, .turn]

/-- The read returns `-EINTR`; it returns the byte when the signal is not sent. -/
theorem not_unmoved_read : ¬∀ (t : Nat) (s : State) (l : List Label), (∃ op, s.place = .run (.call op)) →
    Unmoved t s l := by
  intro h
  have hplace := (h 1 reader interrupted ⟨_, rfl⟩ interrupted (List.prefix_refl _)).place
  have hread : (exec 1 reader interrupted).place = .ret (.pipe (.read [] (-4))) := rfl
  have hcalm : (exec 1 reader.calm (unsent reader interrupted)).place = .ret (.pipe (.read [7] 1)) := rfl
  rw [hread, hcalm] at hplace
  cases hplace

end Interrupt
end Pico
