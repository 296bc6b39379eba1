import Picomimi.AddrSpace
import Picomimi.Pid
import Picomimi.ProcTree
import Picomimi.SchedSlice
/-!
# Fork — `task_fork`, from the first allocation to the wakeup

Memory is the 64-bit words of the kernel stacks; what goes through a user pointer (`parent_tidptr`) goes to the user's memory.
Every allocation of a call is given with the call: an address, or nothing.  A `NULL` that the source dereferences is a fault,
and the call has no result.
-/
namespace Pico
namespace Fork

open Lib

def cloneVm : Nat := 0x100
def cloneFs : Nat := 0x200
def cloneFiles : Nat := 0x400
def cloneSighand : Nat := 0x800
def cloneThread : Nat := 0x10000
def cloneSettls : Nat := 0x80000
def cloneParentSettid : Nat := 0x100000
def cloneChildCleartid : Nat := 0x200000
def cloneChildSettid : Nat := 0x1000000

def esrch : Int := 3
def eagain : Int := 11
def enomem : Int := 12

def kernelStackSize : Nat := 65536

/-- The fields of `sc_regs_t`, which `fork_sc_frame_t` repeats, lowest address first. -/
inductive ScField where
  | rax | rbx | rcx | rdx | rsi | rdi | rbp
  | r8 | r9 | r10 | r11 | r12 | r13 | r14 | r15
  | vector | errorCode
  | rip | cs | rflags | userRsp | ss
deriving DecidableEq

def ScField.all : List ScField :=
  [.rax, .rbx, .rcx, .rdx, .rsi, .rdi, .rbp, .r8, .r9, .r10, .r11, .r12, .r13, .r14, .r15, .vector, .errorCode,
    .rip, .cs, .rflags, .userRsp, .ss]

def ScField.off (f : ScField) : Nat := 8 * f.ctorIdx

/-- `sizeof(fork_sc_frame_t)`. -/
def frameSize : Nat := 176

/-- Where a saved context goes on: the trampoline, or anywhere else. -/
inductive Entry where
  | forkReturnToUser
  | addr (a : Nat)
deriving DecidableEq

/-- The part of `cpu_context_t` that `task_fork` writes. -/
structure Context where
  rip : Entry
  rsp : Nat
  rax : Nat

structure Task where
  pid : Nat
  ppid : Nat
  tgid : Nat
  groupLeader : Option Nat
  parent : Option Nat
  children : List Nat
  stack : Nat
  kernelStack : Option Nat
  context : Context
  trapFrame : Option Nat
  mm : Option Nat
  activeMm : Option Nat
  files : Option Nat
  fs : Option Nat
  sighand : Option Nat
  cred : Option Nat
  tls : Nat
  setChildTid : Nat
  clearChildTid : Nat

/-- What is counted. -/
inductive Ref where
  | mmUsers | files | fs | sighand | cred | file
deriving DecidableEq

structure State where
  current : Option Nat
  tasks : Nat → Option Task
  pidBitmap : Nat → Bool
  lastPid : Nat
  table : Nat → Option Nat                 -- `task_table`
  sys : AddrSpace.System
  count : Ref → Nat → Int
  fds : Nat → List (Option Nat)            -- the `fd_array` of each `files_struct`
  sched : Sched.State
  mem : Nat → Nat
  user : Nat → Nat

structure Args where
  cloneFlags : Nat
  stackStart : Nat
  parentTidptr : Nat
  childTidptr : Nat
  tls : Nat

/-- What the allocations of a call return. -/
structure Allocs where
  child : Option Nat
  stack : Option Nat
  mm : Option Nat
  nodes : Nat → Option Nat      -- of `mm_copy`, one for each area
  files : Option Nat
  fs : Option Nat
  sighand : Option Nat
  cred : Option Nat

def State.setTask (s : State) (t : Nat) (task : Option Task) : State := { s with tasks := Function.update s.tasks t task }

def State.setCount (s : State) (r : Ref) (x : Nat) (n : Int) : State :=
  { s with count := Function.update s.count r (Function.update (s.count r) x n) }

/-- `atomic_inc`. -/
def State.inc (s : State) (r : Ref) (x : Nat) : State := s.setCount r x (s.count r x + 1)

/-- `alloc_pid`. -/
def allocPid (s : State) : Option Nat × State :=
  match Pid.allocFrom s.pidBitmap (Pid.nextPid s.lastPid) Pid.pidMax (Pid.nextPid s.lastPid) with
  | none => (none, s)
  | some pid => (some pid, { s with pidBitmap := Function.update s.pidBitmap pid true, lastPid := pid })

def freePid (s : State) (pid : Nat) : State :=
  if pid < Pid.reservedPids ∨ Pid.pidMax ≤ pid then s else { s with pidBitmap := Function.update s.pidBitmap pid false }

/-! ## The kernel stack and the frame -/

/-- `setup_kernel_stack`; without memory the task keeps the `stack` it has. -/
def setupKernelStack (mem : Nat → Nat) (task : Task) : Option Nat → Task × (Nat → Nat)
  | none => ({ task with kernelStack := none }, mem)
  | some b =>
    ({ task with kernelStack := some b, stack := b + kernelStackSize },
      fun a => if b ≤ a ∧ a < b + kernelStackSize then 0 else mem a)

def store (mem : Nat → Nat) (base : Nat) (f : ScField) (v : Nat) : Nat → Nat := Function.update mem (base + f.off) v

/-- `frame->f = tf->_f`. -/
def copyField (tf base : Nat) (mem : Nat → Nat) (f : ScField) : Nat → Nat := store mem base f (mem (tf + f.off))

/-- The registers copied as they are, in the order of the source. -/
def copied : List ScField :=
  [.rbx, .rcx, .rdx, .rsi, .rdi, .rbp, .r8, .r9, .r10, .r11, .r12, .r13, .r14, .r15, .rip, .cs]

/-- The frame from the parent's trap frame at `tf`. -/
def copyFrame (mem : Nat → Nat) (tf base stackStart : Nat) : Nat → Nat :=
  let mem := store mem base .rax 0
  let mem := copied.foldl (copyField tf base) mem
  let mem := store mem base .rflags (mem (tf + ScField.rflags.off) ||| 0x200)
  let mem := store mem base .userRsp (if stackStart ≠ 0 then stackStart else mem (tf + ScField.userRsp.off))
  copyField tf base mem .ss

/-- The frame of a task that entered the kernel without one. -/
def emptyFrame (mem : Nat → Nat) (base stackStart : Nat) : Nat → Nat :=
  let mem := store mem base .rax 0
  let mem := store mem base .rip 0
  let mem := store mem base .cs 0x2B
  let mem := store mem base .rflags (0x202 ||| 0x200)
  let mem := store mem base .userRsp stackStart
  store mem base .ss 0x33

/-- `memset`, the fields, and the two that no trap frame gives. -/
def buildFrame (mem : Nat → Nat) (trapFrame : Option Nat) (base stackStart : Nat) : Nat → Nat :=
  let mem := ScField.all.foldl (fun mem f => store mem base f 0) mem
  let mem := match trapFrame with
    | some tf => copyFrame mem tf base stackStart
    | none => emptyFrame mem base stackStart
  store (store mem base .vector 0x80) base .errorCode 0

/-! ## What is shared or copied -/

/-- `files_copy`; the old table is not looked at when there is no memory for a new one. -/
def filesCopy (s : State) (old new : Option Nat) : Option (Option Nat × State) :=
  match new, old with
  | none, _ => some (none, s)
  | some _, none => none
  | some y, some x =>
    let fds := (s.fds x).take 64
    let s := { s.setCount .files y 1 with fds := Function.update s.fds y fds }
    some (some y, fds.reduceOption.foldl (fun s f => s.inc .file f) s)

/-- `fs_copy` and `cred_copy`: a structure of its own with a count of 1. -/
def copyRef (r : Ref) (s : State) (old new : Option Nat) : Option (Option Nat × State) :=
  match new, old with
  | none, _ => some (none, s)
  | some _, none => none
  | some y, some _ => some (some y, s.setCount r y 1)

/-- The parent's structure, counted once more. -/
def shareRef (r : Ref) (s : State) : Option Nat → Option (Option Nat × State)
  | none => none
  | some x => some (some x, s.inc r x)

def forkFiles (s : State) (share : Bool) (old new : Option Nat) : Option (Option Nat × State) :=
  if share then shareRef .files s old else filesCopy s old new

def forkFs (s : State) (share : Bool) (old new : Option Nat) : Option (Option Nat × State) :=
  if share then shareRef .fs s old else copyRef .fs s old new

/-- The signal handlers, which a parent may lack. -/
def forkSighand (s : State) (share : Bool) (old new : Option Nat) : Option Nat × State :=
  if share then
    match old with
    | none => (none, s)
    | some x => (some x, s.inc .sighand x)
  else
    match new with
    | none => (none, s)
    | some y => (some y, s.setCount .sighand y 1)

/-- What becomes of the memory. -/
inductive MmResult where
  | ok (mm : Option Nat) (s : State)
  | fail (s : State)                -- `mm_copy` returned `NULL`

/-- Copy or share memory; sharing reads the parent's `mm` whether it has one or not. -/
def forkMm (s : State) (share : Bool) (old : Option Nat) (a : Allocs) : Option MmResult :=
  if share then (shareRef .mmUsers s old).map fun r => .ok r.1 r.2
  else
    match old with
    | none => some (.ok none s)
    | some m =>
      match AddrSpace.mmCopy s.sys m a.mm a.nodes with
      | (none, sys) => some (.fail { s with sys := sys })
      | (some new, sys) => some (.ok (some new) { s.setCount .mmUsers new 1 with sys := sys })

/-! ## The call -/

/-- From the allocation of the task to its link in the parent's list: the child is `c`, its PID `pid`. -/
def linkChild (s : State) (k c pid : Nat) (parent : Task) (args : Args) (a : Allocs) : Task × State :=
  let child := { parent with pid := pid, ppid := parent.pid }
  let child :=
    if Mm.has args.cloneFlags cloneThread then { child with tgid := parent.tgid, groupLeader := parent.groupLeader }
    else { child with tgid := pid, groupLeader := some c }
  let (child, mem) := setupKernelStack s.mem child a.stack
  let base := sub64 child.stack frameSize
  let mem := buildFrame mem parent.trapFrame base args.stackStart
  let child := { child with
    context := { child.context with rsp := base, rip := .forkReturnToUser }
    parent := some k
    children := [] }
  let s := { s with mem := mem }
  (child, (s.setTask c (some child)).setTask k (some { parent with children := parent.children ++ [c] }))

/-- TLS, the user stack, the TID pointers, and the 0 that the child is to see. -/
def setFields (child : Task) (args : Args) : Task :=
  { child with
    tls := if Mm.has args.cloneFlags cloneSettls then args.tls else child.tls
    context := { child.context with
      rsp := if args.stackStart ≠ 0 then args.stackStart else child.context.rsp
      rax := 0 }
    setChildTid := if Mm.has args.cloneFlags cloneChildSettid then args.childTidptr else child.setChildTid
    clearChildTid := if Mm.has args.cloneFlags cloneChildCleartid then args.childTidptr else child.clearChildTid }

/-- From the files to the child's fields. -/
def shareAll (s : State) (parent child : Task) (args : Args) (a : Allocs) : Option (Task × State) := do
  let (files, s) ← forkFiles s (Mm.has args.cloneFlags cloneFiles) parent.files a.files
  let (fs, s) ← forkFs s (Mm.has args.cloneFlags cloneFs) parent.fs a.fs
  let (sighand, s) := forkSighand s (Mm.has args.cloneFlags cloneSighand) parent.sighand a.sighand
  let (cred, s) ← copyRef .cred s parent.cred a.cred
  some (setFields { child with files := files, fs := fs, sighand := sighand, cred := cred } args, s)

/-- The rest: the PID for the parent, the slices, the table and the wakeup. -/
def publish (s : State) (k c : Nat) (child : Task) (args : Args) : State :=
  let s := s.setTask c (some child)
  let s :=
    if Mm.has args.cloneFlags cloneParentSettid ∧ args.parentTidptr ≠ 0 then
      { s with user := Function.update s.user args.parentTidptr child.pid }
    else s
  let table := match ProcTree.firstSlot s.table none ProcTree.maxThreads 0 with
    | none => s.table
    | some i => Function.update s.table i (some c)
  { s with table := table, sched := Sched.taskFork s.sched k c }

/-- `task_fork`: the child, or the number of an error. -/
def taskFork (s : State) (args : Args) (a : Allocs) : Option (Except Int Nat × State) :=
  match s.current with
  | none => some (.error esrch, s)
  | some k =>
    match s.tasks k, a.child with
    | none, _ => none
    | some _, none => some (.error enomem, s)
    | some parent, some c =>
      match allocPid s with
      | (none, s) => some (.error eagain, s)
      | (some pid, s) =>
        let (child, s) := linkChild s k c pid parent args a
        match forkMm s (Mm.has args.cloneFlags cloneVm) parent.mm a with
        | none => none
        | some (.fail s) => some (.error enomem, (freePid s pid).setTask c none)
        | some (.ok mm s) =>
          (shareAll s parent { child with mm := mm, activeMm := mm } args a).map fun r =>
            (.ok c, publish r.2 k c r.1 args)

end Fork
end Pico
