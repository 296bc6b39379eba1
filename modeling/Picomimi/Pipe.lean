import Picomimi.Lib.Ring
import Picomimi.Lib.Run
import Picomimi.Lib.Word
/-!
# Pipe — the pipe of `fs/pipe.c`, one lock-protected section at a time

A thread in `pipe_read` or `pipe_write` is a program counter `Pc` outside the pipe's lock.  `pipeReadTurn` and
`pipeWriteTurn` are one turn of the two loops, from `spin_lock` to `spin_unlock` (or to the unlock inside `pipe_wait`);
the label `wake` is the rest of `pipe_wait` up to the next unlock.  Who runs next, which signals are pending and what the
counts of open ends are is the label's.
-/
namespace Pico
namespace Pipe

open Lib

def pageSize : Nat := 4096
def pipeBufSize : Nat := 65536
def pipeMaxSize : Nat := 1048576
/-- The `PIPE_BUF` of `must_be_atomic`. -/
def pipeBuf : Nat := 4096

def eintr : Int := 4
def eagain : Int := 11
def epipe : Int := 32

structure PipeBuffer where
  data : Nat → UInt8
  size : Nat
  head : Nat
  tail : Nat
  count : Nat

def pbufSpace (pb : PipeBuffer) : Nat := pb.size - pb.count

/-- The loop of `pbuf_write`, and how many bytes it stored. -/
def pbufWrite (pb : PipeBuffer) : List UInt8 → PipeBuffer × Nat
  | [] => (pb, 0)
  | b :: src =>
    if pb.count < pb.size then
      let r := pbufWrite
        { pb with
          data := Function.update pb.data pb.head b
          head := (pb.head + 1) &&& (pb.size - 1)
          count := pb.count + 1 } src
      (r.1, r.2 + 1)
    else (pb, 0)

/-- The loop of `pbuf_read`, and the bytes it copied out. -/
def pbufRead (pb : PipeBuffer) : Nat → PipeBuffer × List UInt8
  | 0 => (pb, [])
  | n + 1 =>
    if 0 < pb.count then
      let r := pbufRead { pb with tail := (pb.tail + 1) &&& (pb.size - 1), count := pb.count - 1 } n
      (r.1, pb.data pb.tail :: r.2)
    else (pb, [])

structure PipeInode where
  buf : PipeBuffer
  readers : Nat
  writers : Nat
  lock : Option Nat     -- the thread that holds it

/-- `while (sz < buf_size) sz <<= 1;`.  No result: the shift has reached 0 and the loop never ends. -/
def roundSize : Nat → Nat → Nat → Option Nat
  | 0, _, _ => none
  | fuel + 1, sz, bufSize => if sz < bufSize then roundSize fuel (sz * 2 % word64) bufSize else some sz

/-- `pipe_alloc`; `data` is what `kmalloc` returned for the ring (`none` is `NULL`). -/
def pipeAlloc (bufSize : Nat) (data : Option (Nat → UInt8)) : Option PipeInode :=
  match roundSize 64 pageSize bufSize, data with
  | some sz, some data => some ⟨⟨data, if pipeMaxSize < sz then pipeMaxSize else sz, 0, 0, 0⟩, 0, 0, none⟩
  | _, _ => none

/-- Where a thread is, between two sections. -/
inductive Pc where
  | user
  | readTop (count : Nat) (nonblock : Bool)
  | readWait (count : Nat) (nonblock : Bool)
  | writeTop (buf : List UInt8) (written : Nat) (nonblock : Bool)
  | writeWait (buf : List UInt8) (written : Nat) (nonblock : Bool)

/-- A finished call: the bytes it copied out or was given, and what it returned. -/
inductive Ret where
  | read (dst : List UInt8) (ret : Int)
  | write (buf : List UInt8) (ret : Int) (sigpipe : Bool)

inductive Next where
  | ret (r : Ret)
  | go (pc : Pc)

/-- `written > 0 ? (s64)written : -err`. -/
def shortRet (written : Nat) (err : Int) : Int := if 0 < written then written else -err

/-- One turn of the loop of `pipe_read`. -/
def pipeReadTurn (pi : PipeInode) (count : Nat) (nonblock : Bool) : PipeInode × Next :=
  if 0 < pi.buf.count then
    let r := pbufRead pi.buf count
    ({ pi with buf := r.1 }, .ret (.read r.2 r.2.length))
  else if pi.writers = 0 then (pi, .ret (.read [] 0))        -- all write ends closed: end of file
  else if nonblock then (pi, .ret (.read [] (-eagain)))
  else (pi, .go (.readWait count nonblock))

/-- One turn of the loop of `pipe_write`, and how many bytes it stored. -/
def pipeWriteTurn (pi : PipeInode) (buf : List UInt8) (written : Nat) (nonblock : Bool) : PipeInode × Nat × Next :=
  if pi.readers = 0 then (pi, 0, .ret (.write buf (shortRet written epipe) true))
  else if pbufSpace pi.buf = 0 ∨ (buf.length ≤ pipeBuf ∧ pbufSpace pi.buf < buf.length) then
    if nonblock then (pi, 0, .ret (.write buf (shortRet written eagain) false))
    else (pi, 0, .go (.writeWait buf written nonblock))
  else
    let r := pbufWrite pi.buf (buf.drop written)
    ({ pi with buf := r.1 }, r.2,
      if written + r.2 < buf.length then .go (.writeTop buf (written + r.2) nonblock)
      else .ret (.write buf (written + r.2 : Nat) false))

/-- A finished call: its thread, its `count`, and what came of it. -/
structure Done where
  thread : Nat
  count : Nat
  ret : Ret

/-- What a thread stored in one section. -/
structure Chunk where
  thread : Nat
  bytes : List UInt8

/-- The pipe, its threads, the calls that have returned and what was taken from writers so far, in order. -/
structure State where
  pi : PipeInode
  pc : Nat → Pc
  rets : List Done
  accepted : List Chunk

/-- Thread `t`, in a call with this `count`, leaves a section. -/
def State.next (s : State) (t count : Nat) (pi : PipeInode) : Next → State
  | .ret r => { s with pi := pi, pc := Function.update s.pc t .user, rets := s.rets ++ [⟨t, count, r⟩] }
  | .go pc => { s with pi := pi, pc := Function.update s.pc t pc }

/-- The first `n` bytes of `src` were stored, if any were. -/
def State.store (s : State) (t : Nat) (src : List UInt8) (n : Nat) : State :=
  if n = 0 then s else { s with accepted := s.accepted ++ [⟨t, src.take n⟩] }

inductive Label where
  | callRead (t count : Nat) (nonblock : Bool)
  | callWrite (t : Nat) (buf : List UInt8) (nonblock : Bool)
  | turn (t : Nat)
  | wake (t : Nat) (signal : Bool)
  | ends (readers writers : Nat)

/-- `pipe_read` up to its loop. -/
def callRead (s : State) (t count : Nat) (nonblock : Bool) : State :=
  if count = 0 then s.next t count s.pi (.ret (.read [] 0)) else s.next t count s.pi (.go (.readTop count nonblock))

/-- `pipe_write` up to its loop: the first look at `readers` is outside the lock. -/
def callWrite (s : State) (t : Nat) (buf : List UInt8) (nonblock : Bool) : State :=
  if buf.length = 0 then s.next t buf.length s.pi (.ret (.write buf 0 false))
  else if s.pi.readers = 0 then s.next t buf.length s.pi (.ret (.write buf (-epipe) true))
  else s.next t buf.length s.pi (.go (.writeTop buf 0 nonblock))

/-- One section of thread `t`, entered with the lock free. -/
def turn (s : State) (t : Nat) : Option State :=
  match s.pc t with
  | .readTop count nonblock =>
    let r := pipeReadTurn s.pi count nonblock
    some (s.next t count r.1 r.2)
  | .writeTop buf written nonblock =>
    let r := pipeWriteTurn s.pi buf written nonblock
    some ((s.store t (buf.drop written) r.2.1).next t buf.length r.1 r.2.2)
  | _ => none

/-- The end of `pipe_wait`, with the lock taken again.  `pipe_read` unlocks before it looks at the result; `pipe_write`
goes back to the top of its loop with the lock held. -/
def wake (s : State) (t : Nat) (signal : Bool) : Option State :=
  match s.pc t with
  | .readWait count nonblock =>
    some (s.next t count s.pi (if signal then .ret (.read [] (-eintr)) else .go (.readTop count nonblock)))
  | .writeWait buf written nonblock =>
    if signal then some (s.next t buf.length s.pi (.ret (.write buf (shortRet written eintr) false)))
    else some (s.next t buf.length { s.pi with lock := some t } (.go (.writeTop buf written nonblock)))
  | _ => none

def isUser : Pc → Bool
  | .user => true
  | _ => false

/-- One step: a thread calls, enters a section or wakes with the lock free, or ends are opened and closed. -/
def step (s : State) : Label → Option State
  | .callRead t count nonblock => if isUser (s.pc t) then some (callRead s t count nonblock) else none
  | .callWrite t buf nonblock => if isUser (s.pc t) then some (callWrite s t buf nonblock) else none
  | .turn t => if s.pi.lock.isNone then turn s t else none
  | .wake t signal => if s.pi.lock.isNone then wake s t signal else none
  | .ends readers writers => some { s with pi := { s.pi with readers := readers, writers := writers } }

/-- A pipe fresh from `pipe_alloc`, of any size it can have, with every thread outside. -/
def machine : Machine State Label where
  init s := (∃ bufSize data, pipeAlloc bufSize data = some s.pi) ∧ (∀ t, s.pc t = .user) ∧ s.rets = [] ∧ s.accepted = []
  step := step

end Pipe
end Pico
