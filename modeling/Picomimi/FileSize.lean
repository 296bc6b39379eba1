import Picomimi.Ramfs
import Picomimi.VfsRun
/-!
# FileSize — the two sizes of a ramfs file

`stat` and `lseek` read `i_size` in the inode (`kernel/fs_syscalls.c`, `kernel/syscall.c`), `ramfs_read` and `ramfs_write` the
size in the record behind `i_private` (`fs/ramfs.c`).  `ramfs_write` sets both; `sys_truncate` and `sys_ftruncate` set the first,
and `filp_open` does not look at `O_TRUNC`.  An operation names the open file a descriptor leads to; what `sys_write` prints for
descriptors 1 and 2, and what the driver of a device does, are left out.
-/
namespace Pico
namespace FileSize

open Lib Vfs
open Ramfs (RamfsInode ramfsRead ramfsWrite)

def ebadf : Int := 9
def oTrunc : Nat := 0x200
def fmodeWrite : Nat := 2

structure OpenFile where
  file : File
  fPos : Nat

/-- The file system, the kernel heap, the records behind `i_private` and the open files.  The record of an inode that is not
made yet is the zeroed one `ramfs_create` gives it. -/
structure World where
  fs : Fs
  heap : Slab.Heap
  ri : Nat → RamfsInode
  files : List OpenFile

namespace World

variable (w : World)

/-- The inode as `ramfs_read` and `ramfs_write` see it. -/
def view (i : Nat) : Ramfs.Inode :=
  ⟨(w.fs.inodes i).iSize, if (w.fs.inodes i).iPrivate = .ramfs then some (w.ri i) else none⟩

def setISize (i n : Nat) : World := { w with fs := w.fs.setInode i { w.fs.inodes i with iSize := n } }

/-- What `ramfs_write` leaves in the inode. -/
def put (i : Nat) (v : Ramfs.Inode) : World :=
  match v.iPrivate with
  | none => w.setISize i v.iSize
  | some r => { w.setISize i v.iSize with ri := Function.update w.ri i r }

def setPos (fd pos : Nat) : World := { w with files := w.files.modify fd fun f => { f with fPos := pos } }

end World

/-- `file->f_op->write` of a ramfs file: what it returns, and `*ppos` after it. -/
def fileWrite (w : World) (f : File) (buf : List UInt8) (pos : Nat) : Except Int Nat × World × Nat :=
  let r := ramfsWrite w.heap (w.view f.fInode) buf pos
  (r.1, { w.put f.fInode r.2.2.1 with heap := r.2.1 }, r.2.2.2)

def isRamfsFile (f : File) : Bool := f.fOp == .ramfsFile

def sysWrite (w : World) (fd : Nat) (buf : List UInt8) : Except Int Nat × World :=
  match w.files[fd]? with
  | none => (.error (-ebadf), w)
  | some f =>
    if isRamfsFile f.file then
      let r := fileWrite w f.file buf f.fPos
      (r.1, r.2.1.setPos fd r.2.2)
    else (.error (-einval), w)

/-- `sys_pwrite64`, through `vfs_write`. -/
def sysPwrite (w : World) (fd : Nat) (buf : List UInt8) (offset : Int) : Except Int Nat × World :=
  if offset < 0 then (.error (-einval), w)
  else
    match w.files[fd]? with
    | none => (.error (-ebadf), w)
    | some f =>
      if ¬isRamfsFile f.file then (.error (-einval), w)
      else if f.file.fMode &&& fmodeWrite = 0 then (.error (-ebadf), w)
      else
        let r := fileWrite w f.file buf offset.toNat
        (r.1, r.2.1)

def sysRead (w : World) (fd count : Nat) : Except Int (List UInt8) × World :=
  match w.files[fd]? with
  | none => (.error (-ebadf), w)
  | some f =>
    if isRamfsFile f.file then
      let r := ramfsRead w.heap.heap (w.view f.file.fInode) count f.fPos
      (.ok r.1, w.setPos fd r.2)
    else (.error (-einval), w)

inductive Whence where
  | seekSet
  | seekCur
  | seekEnd

def newPos (w : World) (f : OpenFile) (offset : Nat) : Whence → Nat
  | .seekSet => offset
  | .seekCur => add64 f.fPos offset
  | .seekEnd => add64 (w.fs.inodes f.file.fInode).iSize offset

/-- `sys_lseek`; the sum is the machine's, and its sign is its bit 63. -/
def sysLseek (w : World) (fd offset : Nat) (whence : Whence) : Except Int Nat × World :=
  match w.files[fd]? with
  | none => (.error (-ebadf), w)
  | some f =>
    if 9223372036854775808 ≤ newPos w f offset whence then (.error (-einval), w)
    else (.ok (newPos w f offset whence), w.setPos fd (newPos w f offset whence))

/-- The inode of the path, which is no directory. -/
def truncateInode (s : Fs) (path : List Char) : Except Int Nat × Fs :=
  match kernPath s path lookupFollow with
  | (.error e, s) => (.error e, s)
  | (.ok d, s) =>
    match s.inode d with
    | none => (.error (-enoent), s)
    | some i => if sIsdir (s.inodes i).iMode then (.error (-eisdir), s) else (.ok i, s)

def sysTruncate (w : World) (path : List Char) (length : Int) : Int × World :=
  if length < 0 then (-einval, w)
  else
    match truncateInode w.fs path with
    | (.error e, s) => (e, { w with fs := s })
    | (.ok i, s) => (0, { w with fs := s }.setISize i length.toNat)

/-- The inode of an open file that may be written. -/
def ftruncateInode (w : World) (fd : Nat) : Except Int Nat :=
  match w.files[fd]? with
  | none => .error (-ebadf)
  | some f => if f.file.fMode &&& fmodeWrite = 0 then .error (-ebadf) else .ok f.file.fInode

def sysFtruncate (w : World) (fd : Nat) (length : Int) : Int × World :=
  if length < 0 then (-einval, w)
  else
    match ftruncateInode w fd with
    | .error e => (e, w)
    | .ok i => (0, w.setISize i length.toNat)

def sysOpen (w : World) (path : List Char) (flags mode : Nat) : Except Int Nat × World :=
  match filpOpen w.fs path flags mode with
  | (.error e, s) => (.error e, { w with fs := s })
  | (.ok f, s) => (.ok w.files.length, { w with fs := s, files := w.files ++ [⟨f, 0⟩] })

/-- A call on the file system. -/
def fsCall (w : World) : Call → World
  | .openAt path flags mode => (sysOpen w path flags mode).2
  | a => { w with fs := a.run w.fs }

inductive Op where
  | call (a : Call)
  | write (fd : Nat) (buf : List UInt8)
  | pwrite (fd : Nat) (buf : List UInt8) (offset : Int)
  | read (fd count : Nat)
  | lseek (fd offset : Nat) (whence : Whence)
  | truncate (path : List Char) (length : Int)
  | ftruncate (fd : Nat) (length : Int)

def Op.run (w : World) : Op → World
  | .call a => fsCall w a
  | .write fd buf => (sysWrite w fd buf).2
  | .pwrite fd buf offset => (sysPwrite w fd buf offset).2
  | .read fd count => (sysRead w fd count).2
  | .lseek fd offset whence => (sysLseek w fd offset whence).2
  | .truncate path length => (sysTruncate w path length).2
  | .ftruncate fd length => (sysFtruncate w fd length).2

def bootWorld (as : List Bool) (h : Slab.Heap) : World := ⟨rootfs as, Slab.slabInit h, fun _ => ⟨none, 0, 0⟩, []⟩

/-- The operations, after `init_rootfs`. -/
def machine : Machine World Op where
  init w := ∃ as h, w = bootWorld as h
  step w a := some (a.run w)

/-! ## What the sizes should be -/

/-- **The two sizes of every ramfs file are equal.** -/
def Agree (w : World) : Prop := ∀ i, (w.fs.inodes i).iPrivate = .ramfs → (w.fs.inodes i).iSize = (w.ri i).size

/-- The inode and the length, when the operation truncates and succeeds. -/
def truncation (w : World) : Op → Option (Nat × Nat)
  | .call (.openAt path flags mode) =>
    if flags &&& oTrunc = 0 then none
    else
      match (filpOpen w.fs path flags mode).1 with
      | .error _ => none
      | .ok f => some (f.fInode, 0)
  | .truncate path length =>
    if length < 0 then none
    else
      match (truncateInode w.fs path).1 with
      | .error _ => none
      | .ok i => some (i, length.toNat)
  | .ftruncate fd length =>
    if length < 0 then none
    else
      match ftruncateInode w fd with
      | .error _ => none
      | .ok i => some (i, length.toNat)
  | _ => none

/-- **The file was truncated to `n`**, from what it was in `w`: both sizes say so, nothing is read from there on, and what it grew
by is zeros. -/
structure TruncatedTo (w t : World) (i n : Nat) : Prop where
  iSize : (t.fs.inodes i).iSize = n
  size : (t.ri i).size = n
  eof : ∀ pos count, n ≤ pos → (ramfsRead t.heap.heap (t.view i) count pos).1 = []
  zero : ∀ k, (w.ri i).size ≤ k → k < n → (ramfsRead t.heap.heap (t.view i) 1 k).1 = [0]

/-- **What an operation should leave.** -/
def SizeLaws (w : World) (a : Op) : Prop :=
  Agree (a.run w) ∧ ∀ i n, truncation w a = some (i, n) → ((a.run w).fs.inodes i).iPrivate = .ramfs → TruncatedTo w (a.run w) i n

/-- The truncation of a ramfs file is to the size it has. -/
def TruncatesInPlace (w : World) (a : Op) : Prop :=
  ∀ i n, truncation w a = some (i, n) → (w.fs.inodes i).iPrivate = .ramfs → (w.ri i).size = n

instance (w : World) (a : Op) : Decidable (TruncatesInPlace w a) :=
  decidable_of_iff (∀ x ∈ truncation w a, (w.fs.inodes x.1).iPrivate = .ramfs → (w.ri x.1).size = x.2)
    ⟨fun h i n hi => h (i, n) hi, fun h x hx => h x.1 x.2 hx⟩

end FileSize
end Pico
