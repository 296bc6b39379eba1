import Picomimi.Lib.Refs
import Picomimi.Lib.Run
/-!
# Files — descriptor tables and `file_t`s

The calls that take and drop references to a `file_t`: `sys_open`, `sys_close`, the `dup`s and `F_DUPFD`, `do_pipe`, the
`files_copy` of `task_fork`, the close-on-exec loop of `do_execve`, the two exits and `reap_zombie`, and `fget` and
`fput` around any other call.  A task has a table of its own (no `CLONE_FILES`).  A table has 64 entries, and nothing
changes `max_fds`; `dup2` and `F_DUPFD` go by `MAX_FDS_PER_PROCESS` and reach the memory around the table, which
`fdArray` shows as further entries.
-/
namespace Pico
namespace Files

open Lib

def ebadf : Int := 9
def enomem : Int := 12
def einval : Int := 22
def emfile : Int := 24

/-- The entries of `fd_array_init`, and `max_fds`. -/
def maxFds : Nat := 64

def maxFdsPerProcess : Int := 1024

/-- `fd_entry_t`; of `flags` the bit `FD_CLOEXEC`, the only one ever set. -/
structure FdEntry where
  file : Option Nat
  cloexec : Bool
deriving DecidableEq

def FdEntry.empty : FdEntry := ⟨none, false⟩

structure FilesStruct where
  nextFd : Nat
  fdArray : Int → FdEntry

inductive PipeEnd where
  | read | write
deriving DecidableEq

/-- The counts of a `pipe_inode_t`. -/
structure PipeCounts where
  readers : Int
  writers : Int
deriving DecidableEq

structure State where
  pool : Pool                               -- the `file_t`s and their `f_count`
  kind : Nat → Option (PipeEnd × Nat)       -- `f_op` and `private_data` of a pipe's end
  pipes : Nat → Option PipeCounts
  ntasks : Nat
  files : Nat → Option FilesStruct          -- by task
  zombie : Nat → Bool
  inflight : List Nat                       -- what `fget` returned to calls still running

/-! ## Tables -/

/-- `fd >= 0 && fd < max_fds`. -/
def InTable (fd : Int) : Prop := 0 ≤ fd ∧ fd < maxFds

instance (fd : Int) : Decidable (InTable fd) := inferInstanceAs (Decidable (_ ∧ _))

def FilesStruct.set (t : FilesStruct) (i : Int) (e : FdEntry) : FilesStruct :=
  { t with fdArray := Function.update t.fdArray i e }

def State.setTable (s : State) (k : Nat) (t : FilesStruct) : State :=
  { s with files := Function.update s.files k (some t) }

def State.setSlot (s : State) (k : Nat) (i : Int) (e : FdEntry) : State :=
  match s.files k with
  | none => s
  | some t => s.setTable k (t.set i e)

/-- The entry, whatever lies there. -/
def State.entry (s : State) (k : Nat) (i : Int) : FdEntry :=
  match s.files k with
  | none => .empty
  | some t => t.fdArray i

/-- The first of `n` entries from `i` on without a file. -/
def firstUnused (t : FilesStruct) : Nat → Nat → Option Nat
  | 0, _ => none
  | n + 1, i => if (t.fdArray i).file = none then some i else firstUnused t n (i + 1)

def getUnusedFd (s : State) (k : Nat) : Option Nat × State :=
  match s.files k with
  | none => (none, s)
  | some t =>
    match firstUnused t (maxFds - t.nextFd) t.nextFd with
    | some i => (some i, s.setTable k { t with nextFd := i + 1 })
    | none =>
      match firstUnused t t.nextFd 0 with
      | some i => (some i, s.setTable k { t with nextFd := i + 1 })
      | none => (none, s)

def fdInstall (s : State) (k : Nat) (fd : Int) (f : Nat) : State :=
  if InTable fd then s.setSlot k fd { s.entry k fd with file := some f } else s

/-! ## References -/

/-- The file of a descriptor, as `fget` looks it up. -/
def State.lookup (s : State) (k : Nat) (fd : Int) : Option Nat :=
  if InTable fd then (s.entry k fd).file else none

def State.incFile (s : State) (f : Nat) : State := { s with pool := s.pool.inc f }

def fget (s : State) (k : Nat) (fd : Int) : Option Nat × State :=
  match s.lookup k fd with
  | none => (none, s)
  | some f => (some f, s.incFile f)

/-- `fput`; its call of `release` is commented out. -/
def fput (s : State) (f : Nat) : State := { s with pool := s.pool.dec f }

/-- `get_empty_filp`, or `make_pipe_file`. -/
def State.newFile (s : State) (f : Nat) (kind : Option (PipeEnd × Nat)) : State :=
  { s with pool := s.pool.alloc f, kind := Function.update s.kind f kind }

def State.kfreeFile (s : State) (f : Nat) : State := { s with pool := s.pool.free f }

def PipeCounts.dec (c : PipeCounts) : PipeEnd → PipeCounts
  | .read => { c with readers := c.readers - 1 }
  | .write => { c with writers := c.writers - 1 }

/-- `pipe_read_release` and `pipe_write_release`. -/
def pipeRelease (s : State) (e : PipeEnd) (p : Nat) : State :=
  match s.pipes p with
  | none => s
  | some c =>
    let c := c.dec e
    { s with pipes := Function.update s.pipes p (if c.readers = 0 ∧ c.writers = 0 then none else some c) }

/-- `f_op->release`, of the files that have one here. -/
def release (s : State) (f : Nat) : State :=
  match s.kind f with
  | none => s
  | some (e, p) => pipeRelease s e p

/-- `filp_close`: it does not look at `f_count`. -/
def filpClose (s : State) (f : Nat) : State := (release s f).kfreeFile f

/-! ## The calls -/

def doClose (s : State) (k : Nat) (fd : Int) : Int × State :=
  if InTable fd then
    match (s.entry k fd).file with
    | none => (-ebadf, s.setSlot k fd .empty)
    | some f => (0, fput (s.setSlot k fd .empty) f)
  else (-ebadf, s)

/-- `sys_open`; `new` is the file `filp_open` returns. -/
def sysOpen (s : State) (k : Nat) (new : Option Nat) : Option Int × State :=
  match new with
  | none => (none, s)
  | some f =>
    let s := s.newFile f none
    match getUnusedFd s k with
    | (none, s) => (some (-emfile), filpClose s f)
    | (some fd, s) => (some fd, fdInstall s k fd f)

def sysDup (s : State) (k : Nat) (oldfd : Int) : Int × State :=
  match fget s k oldfd with
  | (none, s) => (-ebadf, s)
  | (some f, s) =>
    match getUnusedFd s k with
    | (none, s) => (-emfile, fput s f)
    | (some newfd, s) => (newfd, fdInstall s k newfd f)

/-- "Close newfd if open". -/
def closeExisting (s : State) (k : Nat) (newfd : Int) : State :=
  match fget s k newfd with
  | (none, s) => s
  | (some existing, s) => (doClose (fput s existing) k newfd).2

def sysDup2 (s : State) (k : Nat) (oldfd newfd : Int) : Int × State :=
  if oldfd = newfd then
    match fget s k oldfd with
    | (none, s) => (-ebadf, s)
    | (some f, s) => (newfd, fput s f)
  else
    match fget s k oldfd with
    | (none, s) => (-ebadf, s)
    | (some f, s) =>
      if newfd < 0 ∨ maxFdsPerProcess ≤ newfd then (-ebadf, fput s f)
      else (newfd, (closeExisting s k newfd).setSlot k newfd ⟨some f, false⟩)

def sysDup3 (s : State) (k : Nat) (oldfd newfd : Int) (cloexec : Bool) : Int × State :=
  if oldfd = newfd then (-einval, s)
  else
    let r := sysDup2 s k oldfd newfd
    if r.1 < 0 then r
    else if cloexec then (r.1, r.2.setSlot k newfd { r.2.entry k newfd with cloexec := true })
    else r

/-- The loop of `F_DUPFD`, over `n` entries from `i` on. -/
def dupfdFrom (s : State) (k : Nat) : Nat → Int → Option Int
  | 0, _ => none
  | n + 1, i => if (s.entry k i).file = none then some i else dupfdFrom s k n (i + 1)

/-- Where `F_DUPFD` puts the file; `arg` is the argument as an `int`. -/
def dupfdSlot (s : State) (k : Nat) (arg : Int) : Option Int := dupfdFrom s k (maxFdsPerProcess - arg).toNat arg

/-- `sys_fcntl` with `F_DUPFD` or `F_DUPFD_CLOEXEC`. -/
def sysDupfd (s : State) (k : Nat) (fd arg : Int) (cloexec : Bool) : Int × State :=
  if fd < 0 ∨ maxFdsPerProcess ≤ fd then (-ebadf, s)
  else
    match (s.entry k fd).file with
    | none => (-ebadf, s)
    | some f =>
      match dupfdSlot s k arg with
      | none => (-emfile, s)
      | some i => (i, (s.setSlot k i ⟨some f, cloexec⟩).incFile f)

/-- `sys_fcntl` with `F_SETFD`. -/
def sysSetfd (s : State) (k : Nat) (fd : Int) (cloexec : Bool) : Int × State :=
  if fd < 0 ∨ maxFdsPerProcess ≤ fd then (-ebadf, s)
  else
    match (s.entry k fd).file with
    | none => (-ebadf, s)
    | some f => (0, s.setSlot k fd ⟨some f, cloexec⟩)

/-- `do_pipe`; what the allocators return for the pipe and its two files. -/
def doPipe (s : State) (k : Nat) (pi rf wf : Option Nat) : Int × State :=
  match pi, rf, wf with
  | some pi, some rf, some wf =>
    let s := { s with pipes := Function.update s.pipes pi (some ⟨1, 1⟩) }
    let s := (s.newFile rf (some (.read, pi))).newFile wf (some (.write, pi))
    let pipeFree (s : State) : State := { s with pipes := Function.update s.pipes pi none }
    match getUnusedFd s k with
    | (none, s) => (-emfile, pipeFree ((s.kfreeFile rf).kfreeFile wf))
    | (some rfd, s) =>
      let s := fdInstall s k rfd rf
      match getUnusedFd s k with
      | (none, s) => (-emfile, pipeFree ((doClose s k rfd).2.kfreeFile wf))
      | (some wfd, s) => (0, fdInstall s k wfd wf)
  | _, _, _ => (-enomem, s)      -- what was allocated is freed again

/-- The files of the 64 entries, in order. -/
@[irreducible] def FilesStruct.slots (t : FilesStruct) : List Nat := gather (fun i => (t.fdArray i).file.toList) maxFds

/-- The table `files_copy` makes; `junk` lies around it. -/
def FilesStruct.copy (t : FilesStruct) (junk : Int → FdEntry) : FilesStruct where
  nextFd := t.nextFd
  fdArray i := if InTable i then (if (t.fdArray i).file = none then .empty else t.fdArray i) else junk i

/-- `files_copy` in `task_fork`: the child is the next task; without memory it has no table. -/
def filesCopy (s : State) (k : Nat) (mem : Bool) (junk : Int → FdEntry) : State :=
  match s.files k with
  | none => s
  | some t =>
    if !mem then { s with ntasks := s.ntasks + 1 }
    else { s with
      pool := t.slots.foldl Pool.inc s.pool
      ntasks := s.ntasks + 1
      files := Function.update s.files s.ntasks (some (t.copy junk)) }

/-- One turn of the close-on-exec loop. -/
def execSlot (s : State) (k i : Nat) : State :=
  match (s.entry k i).file with
  | none => s
  | some f => if (s.entry k i).cloexec then (filpClose s f).setSlot k i .empty else s

def execClose (s : State) (k : Nat) : State := (List.range maxFds).foldl (fun s i => execSlot s k i) s

/-- One turn of the loops in `do_exit` and `reap_zombie`. -/
def exitSlot (s : State) (k i : Nat) : State :=
  match (s.entry k i).file with
  | none => s
  | some f => (fput s f).setSlot k i { s.entry k i with file := none }

def exitClose (s : State) (k : Nat) : State := (List.range maxFds).foldl (fun s i => exitSlot s k i) s

/-- `files_free` in `task_exit`, whose `fput` is commented out: the table goes, its references stay. -/
def filesFree (s : State) (k : Nat) : State := { s with files := Function.update s.files k none }

def State.bury (s : State) (k : Nat) : State := { s with zombie := Function.update s.zombie k true }

/-! ## Runs -/

inductive Label where
  | opn (k : Nat) (new : Option Nat)
  | close (k : Nat) (fd : Int)
  | dup (k : Nat) (oldfd : Int)
  | dup2 (k : Nat) (oldfd newfd : Int)
  | dup3 (k : Nat) (oldfd newfd : Int) (cloexec : Bool)
  | dupfd (k : Nat) (fd arg : Int) (cloexec : Bool)
  | setfd (k : Nat) (fd : Int) (cloexec : Bool)
  | pipe (k : Nat) (pi rf wf : Option Nat)
  | fork (k : Nat) (mem : Bool) (junk : Int → FdEntry)
  | exec (k : Nat)              -- that gets as far as the loop; its own file is opened and closed within the call
  | exit (k : Nat)
  | taskExit (k : Nat)
  | reap (k : Nat)
  | fget (k : Nat) (fd : Int)
  | fput (f : Nat)

/-- A task that can make calls. -/
def State.Live (s : State) (k : Nat) : Prop := (s.files k).isSome ∧ s.zombie k = false

instance (s : State) (k : Nat) : Decidable (s.Live k) := inferInstanceAs (Decidable (_ ∧ _))

/-- `kmalloc` returns memory that is not in use. -/
def State.NewFile (s : State) (f : Nat) : Prop := s.pool.count f = none

instance (s : State) (f : Nat) : Decidable (s.NewFile f) := inferInstanceAs (Decidable (_ = _))

/-- What `do_pipe`'s allocations may return. -/
def State.NewPipe (s : State) (pi rf wf : Option Nat) : Prop :=
  (∀ p ∈ pi, s.pipes p = none) ∧ (∀ f ∈ rf, s.NewFile f) ∧ (∀ f ∈ wf, s.NewFile f) ∧ ∀ f ∈ rf, ∀ g ∈ wf, f ≠ g

instance (s : State) (pi rf wf : Option Nat) : Decidable (s.NewPipe pi rf wf) :=
  inferInstanceAs (Decidable (_ ∧ _ ∧ _ ∧ _))

def when (P : Prop) [Decidable P] (s : State) : Option State := if P then some s else none

def fileStep (s : State) : Label → Option State
  | .opn k new => when (s.Live k ∧ ∀ f ∈ new, s.NewFile f) (sysOpen s k new).2
  | .close k fd => when (s.Live k) (doClose s k fd).2
  | .dup k oldfd => when (s.Live k) (sysDup s k oldfd).2
  | .dup2 k oldfd newfd => when (s.Live k) (sysDup2 s k oldfd newfd).2
  | .dup3 k oldfd newfd cloexec => when (s.Live k) (sysDup3 s k oldfd newfd cloexec).2
  | .dupfd k fd arg cloexec => when (s.Live k) (sysDupfd s k fd arg cloexec).2
  | .setfd k fd cloexec => when (s.Live k) (sysSetfd s k fd cloexec).2
  | .pipe k pi rf wf => when (s.Live k ∧ s.NewPipe pi rf wf) (doPipe s k pi rf wf).2
  | .fork k mem junk => when (s.Live k) (filesCopy s k mem junk)
  | .exec k => when (s.Live k) (execClose s k)
  | .exit k => when (s.Live k) ((exitClose s k).bury k)
  | .taskExit k => when (s.Live k) ((filesFree s k).bury k)
  | .reap k => when (s.zombie k = true) (filesFree (exitClose s k) k)
  | .fget k fd => when (s.Live k) (
      match fget s k fd with
      | (none, s) => s
      | (some f, s) => { s with inflight := f :: s.inflight })
  | .fput f => when (f ∈ s.inflight) { fput s f with inflight := s.inflight.erase f }

/-- One task with an empty table. -/
def fileMachine : Machine State Label where
  init s := s.pool = ⟨fun _ => none, false⟩ ∧ (∀ p, s.pipes p = none) ∧ s.ntasks = 1 ∧ (∀ k, s.zombie k = false) ∧
    (∀ k, 1 ≤ k → s.files k = none) ∧ s.inflight = [] ∧
    ∃ t, s.files 0 = some t ∧ t.nextFd = 0 ∧ ∀ i, InTable i → t.fdArray i = .empty
  step := fileStep

end Files
end Pico
