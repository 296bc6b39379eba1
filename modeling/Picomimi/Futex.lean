import Picomimi.Lib.Run
import Picomimi.Lib.Slist
/-!
# Futex — the hash table of `sys_futex`

A waiter's record stands on its own stack and is linked behind the bucket of the address it waits on.  No lock guards the
buckets, so a step here is one turn of a loop over a bucket, one store that links a record, or one turn of the waiter's
loop, of any task.  A record is named by its task.
-/
namespace Pico
namespace Futex

open Lib Lib.Slist

def efault : Int := 14
def eagain : Int := 11
def eintr : Int := 4
def etimedout : Int := 110
def enosys : Int := 38

def futexWait : Nat := 0
def futexWake : Nat := 1
def futexRequeue : Nat := 3
/-- `FUTEX_PRIVATE_FLAG|FUTEX_CLOCK_RT`, which `FUTEX_CMD_MASK` takes away. -/
def futexFlags : Nat := 128 ||| 256

def word64 : Nat := 18446744073709551616

/-- `(int)val`. -/
def int32 (val : Nat) : Int := (BitVec.ofNat 32 val).toInt

def futexHashKey (uaddr : Nat) : Nat :=
  let h := uaddr ^^^ (uaddr >>> 12)
  let h := h ^^^ (h >>> 7)
  h &&& 255

/-- `futex_waiter_t`, without `task` and `next`. -/
structure Waiter where
  uaddr : Nat
  val : Nat

/-- Where a task is in `sys_futex`; `user` is outside, with the last call's result. -/
inductive Pc where
  | user (ret : Int)
  | waitLink (uaddr val slot deadline : Nat)          -- `waiter.next = futex_hash[slot]`
  | waitHead (uaddr val slot deadline : Nat)          -- `futex_hash[slot] = &waiter`
  | waiting (uaddr val slot deadline : Nat)           -- the loop that reads `*uaddr`
  | leave (slot : Nat) (ret : Int)                    -- the loop is over
  | unlink (slot : Nat) (pp : Loc Nat Nat) (ret : Int)
  | wake (uaddr val woken : Nat) (pp : Loc Nat Nat)
  | requeue (uaddr val uaddr2 woken : Nat) (pp : Loc Nat Nat)

/-- The tasks' places, user memory, the records, and `futex_hash` with the records' `next`. -/
structure System where
  mem : Nat → Nat
  store : Slist Nat Nat
  waiters : Nat → Waiter
  pcs : List Pc

/-- `jiffies + (u64)(tv_sec * 1000) + (u64)(tv_nsec / 1000000)`; 0 is no deadline. -/
def deadlineOf (jiffies : Nat) : Option (Int × Int) → Nat
  | none => 0
  | some (sec, nsec) => ((jiffies + sec * 1000 + nsec.tdiv 1000000) % (word64 : Int)).toNat

/-- `deadline && (s64)(jiffies - deadline) >= 0`. -/
def late (jiffies deadline : Nat) : Bool :=
  deadline ≠ 0 && (jiffies + (word64 - deadline)) % word64 < word64 / 2

/-- The entry of `sys_futex`, up to the first access to a bucket. -/
def sysFutex (s : System) (t uaddr op val : Nat) (timeout : Option (Int × Int)) (uaddr2 jiffies : Nat) : System :=
  let cmd := op ^^^ (op &&& futexFlags)
  if uaddr = 0 then { s with pcs := s.pcs.set t (.user (-efault)) }
  else if cmd = futexWait then
    if s.mem uaddr ≠ val then { s with pcs := s.pcs.set t (.user (-eagain)) }
    else
      { s with
        store := s.store.write (.next t) none
        waiters := Function.update s.waiters t ⟨uaddr, val⟩
        pcs := s.pcs.set t (.waitLink uaddr val (futexHashKey uaddr) (deadlineOf jiffies timeout)) }
  else if cmd = futexWake then
    { s with pcs := s.pcs.set t (.wake uaddr val 0 (.head (futexHashKey uaddr))) }
  else if cmd = futexRequeue then
    if uaddr2 = 0 then { s with pcs := s.pcs.set t (.user (-efault)) }
    else { s with pcs := s.pcs.set t (.requeue uaddr val uaddr2 0 (.head (futexHashKey uaddr))) }
  else { s with pcs := s.pcs.set t (.user (-enosys)) }

/-- How the waiter's loop is left, if this turn leaves it. -/
def leaves (s : System) (uaddr val deadline : Nat) (signal : Bool) (jiffies : Nat) : Option Int :=
  if s.mem uaddr ≠ val then some 0
  else if signal then some (-eintr)
  else if late jiffies deadline then some (-etimedout)
  else none

/-- One turn of the loop that takes the task's own record out. -/
def unlinkTurn (s : System) (t slot : Nat) (pp : Loc Nat Nat) (ret : Int) : System :=
  match s.store.read pp with
  | none => { s with pcs := s.pcs.set t (.user ret) }
  | some w =>
    if w = t then { s with store := s.store.write pp (s.store.next w), pcs := s.pcs.set t (.user ret) }
    else { s with pcs := s.pcs.set t (.unlink slot (.next w) ret) }

/-- One turn of `FUTEX_WAKE`'s loop. -/
def wakeTurn (s : System) (t uaddr val woken : Nat) (pp : Loc Nat Nat) : System :=
  match s.store.read pp with
  | none => { s with pcs := s.pcs.set t (.user woken) }
  | some w =>
    if int32 val ≤ woken then { s with pcs := s.pcs.set t (.user woken) }
    else if (s.waiters w).uaddr = uaddr then
      { s with
        store := (s.store.write pp (s.store.next w)).write (.next w) none
        pcs := s.pcs.set t (.wake uaddr val (woken + 1) pp) }
    else { s with pcs := s.pcs.set t (.wake uaddr val woken (.next w)) }

/-- One turn of `FUTEX_REQUEUE`'s loop. -/
def requeueTurn (s : System) (t uaddr val uaddr2 woken : Nat) (pp : Loc Nat Nat) : System :=
  match s.store.read pp with
  | none => { s with pcs := s.pcs.set t (.user woken) }
  | some w =>
    if (s.waiters w).uaddr ≠ uaddr then { s with pcs := s.pcs.set t (.requeue uaddr val uaddr2 woken (.next w)) }
    else
      let store := s.store.write pp (s.store.next w)
      if woken < int32 val then
        { s with
          store := store.write (.next w) none
          pcs := s.pcs.set t (.requeue uaddr val uaddr2 (woken + 1) pp) }
      else
        let slot2 := futexHashKey uaddr2
        { s with
          store := (store.write (.next w) (store.head slot2)).write (.head slot2) (some w)
          waiters := Function.update s.waiters w { s.waiters w with uaddr := uaddr2 }
          pcs := s.pcs.set t (.requeue uaddr val uaddr2 woken pp) }

/-- The next access of a task that is inside `sys_futex`. -/
def turn (s : System) (t : Nat) (signal : Bool) (jiffies : Nat) : Pc → Option System
  | .user _ => none
  | .waitLink uaddr val slot deadline =>
    some { s with
      store := s.store.write (.next t) (s.store.head slot)
      pcs := s.pcs.set t (.waitHead uaddr val slot deadline) }
  | .waitHead uaddr val slot deadline =>
    some { s with
      store := s.store.write (.head slot) (some t)
      pcs := s.pcs.set t (.waiting uaddr val slot deadline) }
  | .waiting uaddr val slot deadline =>
    match leaves s uaddr val deadline signal jiffies with
    | none => some s
    | some ret => some { s with pcs := s.pcs.set t (.leave slot ret) }
  | .leave slot ret => some (unlinkTurn s t slot (.head slot) ret)
  | .unlink slot pp ret => some (unlinkTurn s t slot pp ret)
  | .wake uaddr val woken pp => some (wakeTurn s t uaddr val woken pp)
  | .requeue uaddr val uaddr2 woken pp => some (requeueTurn s t uaddr val uaddr2 woken pp)

inductive Label where
  | store (addr val : Nat)                             -- a task writes user memory
  | call (t uaddr op val : Nat) (timeout : Option (Int × Int)) (uaddr2 jiffies : Nat)
  | turn (t : Nat) (signal : Bool) (jiffies : Nat)

def step (s : System) : Label → Option System
  | .store addr val => some { s with mem := Function.update s.mem addr val }
  | .call t uaddr op val timeout uaddr2 jiffies =>
    match s.pcs[t]? with
    | some (.user _) => some (sysFutex s t uaddr op val timeout uaddr2 jiffies)
    | _ => none
  | .turn t signal jiffies =>
    match s.pcs[t]? with
    | some p => turn s t signal jiffies p
    | none => none

/-- Any number of tasks outside `sys_futex`, and empty buckets. -/
def machine : Machine System Label where
  init s := (∀ p ∈ s.pcs, ∃ ret, p = .user ret) ∧ ∀ b, s.store.head b = none
  step := step

/-- **A task outside `FUTEX_WAIT` has no record in a bucket, and a record is in the bucket of its address.** -/
structure QueueSafe (s : System) : Prop where
  returned : ∀ t ret, s.pcs[t]? = some (.user ret) → ∀ b, ¬s.store.On b t
  hashed : ∀ b w, s.store.On b w → futexHashKey (s.waiters w).uaddr = b

/-! ## When it is safe -/

/-- The task is between two accesses to a bucket's list. -/
def Pc.inList : Pc → Bool
  | .user _ | .waitLink _ _ _ _ | .waiting _ _ _ _ | .leave _ _ => false
  | .waitHead _ _ _ _ | .unlink _ _ _ | .wake _ _ _ _ | .requeue _ _ _ _ _ => true

/-- No other task is in a bucket's list. -/
def Alone (s : System) (t : Nat) : Prop := ∀ p ∈ s.pcs.eraseIdx t, p.inList = false

/-- The task's record is still in the bucket it was put in, or in none. -/
def Stayed (s : System) (t slot : Nat) : Prop := futexHashKey (s.waiters t).uaddr = slot ∨ ∀ b, ¬s.store.On b t

/-- What a task's next access asks for. -/
def OrderlyAt (s : System) (t : Nat) : Pc → Prop
  | .waiting _ _ _ _ => True
  | .leave slot _ => Alone s t ∧ Stayed s t slot
  | _ => Alone s t

/-- **The lists are used by one task at a time, and a waiter leaves only while no `FUTEX_REQUEUE` has its record in another
bucket.** -/
def Orderly (s : System) : Label → Prop
  | .turn t _ _ => ∀ p ∈ s.pcs[t]?, OrderlyAt s t p
  | .store _ _ | .call _ _ _ _ _ _ _ => True

end Futex
end Pico
