import Picomimi.Files
import Picomimi.Lib.Word
/-!
# Transfer — the calls that move bytes: `kernel/syscall.c`, `kernel/fs_syscalls.c`, `vfs_read` and `vfs_write`

`sys_read` and `sys_write` call the file's operation themselves, the other calls through `vfs_read` and `vfs_write`, which
look at `f_mode` first.  `sys_write` and `sys_sendfile` print what goes to descriptors 1 and 2.  The operations are those
of any files (`Fops`), over a state of their own: a read returns at most what was asked for, and a write accepts at most
what it is offered.  The calls of them are recorded.  The descriptor tables are those of `Files`.
-/
namespace Pico
namespace Transfer

open Lib

def ebadf : Int := 9
def enomem : Int := 12
def einval : Int := 22

def fmodeRead : Nat := 1
def fmodeWrite : Nat := 2

/-- `file_t`; `fOp` and `privateData` name what the pointers lead to. -/
structure FileT where
  fInode : Option Nat
  fOp : Nat
  privateData : Nat
  fMode : Nat
  fFlags : Nat
  fPos : Nat
deriving DecidableEq

/-- What an operation returns when it fails. -/
abbrev Errno := { e : Int // e < 0 }

/-- The result, `*ppos` after the call and the state. -/
abbrev ReadOp (σ : Type) :=
  FileT → σ → (count : Nat) → Nat → Except Errno { l : List UInt8 // l.length ≤ count } × Nat × σ

abbrev WriteOp (σ : Type) :=
  FileT → σ → (buf : List UInt8) → Nat → Except Errno { n : Nat // n ≤ buf.length } × Nat × σ

/-- `f_op->read` and `f_op->write` by `f_op`, none for `NULL`, what its `ioctl` gives for `FBIO_GET_PHYSADDR`, and `i_size` by
the inode. -/
structure Fops (σ : Type) where
  read : Nat → Option (ReadOp σ)
  write : Nat → Option (WriteOp σ)
  physAddr : Nat → FileT → σ → Nat
  iSize : σ → Nat → Nat
  setISize : σ → Nat → Nat → σ

/-- A call of a read operation: the file, and what it returned. -/
structure Got where
  file : Nat
  data : List UInt8

/-- A call of a write operation: the file, what it was offered and at which position, and what it returned. -/
structure Sent where
  file : Nat
  buf : List UInt8
  pos : Nat
  res : Except Int Nat

structure Sys (σ : Type) where
  dev : σ                   -- what the operations work on
  file : Nat → FileT
  fs : Files.State          -- the tables
  console : List UInt8      -- what `printk` put out
  got : List Got            -- the newest last
  sent : List Sent

variable {σ : Type} (io : Fops σ)

namespace Sys

variable (s : Sys σ)

def setPos (f pos : Nat) : Sys σ := { s with file := Function.update s.file f { s.file f with fPos := pos } }

/-- `for (...) printk("%c", p[i])` -/
def print (buf : List UInt8) : Sys σ := { s with console := s.console ++ buf }

/-- The file a call gets from `fget`, whose reference it drops again. -/
def fget (k : Nat) (fd : Int) : Option Nat := s.fs.lookup k fd

end Sys

/-- A call returns what was read, or the error. -/
def ofRead {count : Nat} : Except Errno { l : List UInt8 // l.length ≤ count } → Except Int (List UInt8)
  | .error e => .error e
  | .ok l => .ok l

def ofWrite {buf : List UInt8} : Except Errno { n : Nat // n ≤ buf.length } → Except Int Nat
  | .error e => .error e
  | .ok n => .ok n

/-- What the caller gets. -/
def retOf : Except Int Nat → Int
  | .error e => e
  | .ok n => n

/-- The bytes of a read, none if it failed. -/
def bytesOf : Except Int (List UInt8) → List UInt8
  | .error _ => []
  | .ok l => l

/-- `f_op->read`, of file `f`. -/
def callRead (s : Sys σ) (op : ReadOp σ) (f count pos : Nat) : Except Int (List UInt8) × Nat × Sys σ :=
  let r := op (s.file f) s.dev count pos
  (ofRead r.1, r.2.1, { s with dev := r.2.2, got := s.got ++ [⟨f, bytesOf (ofRead r.1)⟩] })

/-- `f_op->write`, of file `f`. -/
def callWrite (s : Sys σ) (op : WriteOp σ) (f : Nat) (buf : List UInt8) (pos : Nat) : Except Int Nat × Nat × Sys σ :=
  let r := op (s.file f) s.dev buf pos
  (ofWrite r.1, r.2.1, { s with dev := r.2.2, sent := s.sent ++ [⟨f, buf, pos, ofWrite r.1⟩] })

/-! ## `vfs_read` and `vfs_write` -/

def vfsRead (s : Sys σ) (f count pos : Nat) : Except Int (List UInt8) × Nat × Sys σ :=
  match io.read (s.file f).fOp with
  | none => (.error (-einval), pos, s)
  | some op => if (s.file f).fMode &&& fmodeRead = 0 then (.error (-ebadf), pos, s) else callRead s op f count pos

def vfsWrite (s : Sys σ) (f : Nat) (buf : List UInt8) (pos : Nat) : Except Int Nat × Nat × Sys σ :=
  match io.write (s.file f).fOp with
  | none => (.error (-einval), pos, s)
  | some op => if (s.file f).fMode &&& fmodeWrite = 0 then (.error (-ebadf), pos, s) else callWrite s op f buf pos

/-- `vfs_read(file, buf, count, &file->f_pos)` -/
def readHere (s : Sys σ) (f count : Nat) : Except Int (List UInt8) × Sys σ :=
  let r := vfsRead io s f count (s.file f).fPos
  (r.1, r.2.2.setPos f r.2.1)

/-- `vfs_write(file, buf, count, &file->f_pos)` -/
def writeHere (s : Sys σ) (f : Nat) (buf : List UInt8) : Except Int Nat × Sys σ :=
  let r := vfsWrite io s f buf (s.file f).fPos
  (r.1, r.2.2.setPos f r.2.1)

/-! ## The calls -/

def sysRead (s : Sys σ) (k : Nat) (fd : Int) (count : Nat) : Except Int (List UInt8) × Sys σ :=
  match s.fget k fd with
  | none => (.error (-ebadf), s)
  | some f =>
    match io.read (s.file f).fOp with
    | none => (.error (-einval), s)
    | some op =>
      let r := callRead s op f count (s.file f).fPos
      (r.1, r.2.2.setPos f r.2.1)

def sysWrite (s : Sys σ) (k : Nat) (fd : Int) (buf : List UInt8) : Int × Sys σ :=
  match s.fget k fd with
  | none => (-ebadf, s)
  | some f =>
    if fd = 1 ∨ fd = 2 then (buf.length, s.print buf)
    else
      match io.write (s.file f).fOp with
      | none => (-einval, s)
      | some op =>
        let r := callWrite s op f buf (s.file f).fPos
        (retOf r.1, r.2.2.setPos f r.2.1)

def sysPread (s : Sys σ) (k : Nat) (fd : Int) (count : Nat) (offset : Int) : Except Int (List UInt8) × Sys σ :=
  if offset < 0 then (.error (-einval), s)
  else
    match s.fget k fd with
    | none => (.error (-ebadf), s)
    | some f =>
      let r := vfsRead io s f count offset.toNat
      (r.1, r.2.2)

def sysPwrite (s : Sys σ) (k : Nat) (fd : Int) (buf : List UInt8) (offset : Int) : Int × Sys σ :=
  if offset < 0 then (-einval, s)
  else
    match s.fget k fd with
    | none => (-ebadf, s)
    | some f =>
      let r := vfsWrite io s f buf offset.toNat
      (retOf r.1, r.2.2)

def iovMax : Nat := 1024

/-- The loop of `sys_readv`, over lengths, 0 for an entry that is left out; what was read so far, in order. -/
def readvFrom (f : Nat) : List Nat → List UInt8 → Sys σ → Except Int (List UInt8) × Sys σ
  | [], total, s => (.ok total, s)
  | n :: ns, total, s =>
    if n = 0 then readvFrom f ns total s
    else
      match readHere io s f n with
      | (.error e, s) => (if total = [] then .error e else .ok total, s)
      | (.ok l, s) => if l.length < n then (.ok (total ++ l), s) else readvFrom f ns (total ++ l) s

/-- An entry without a base is one of length 0 here. -/
def sysReadv (s : Sys σ) (k : Nat) (fd : Int) (iov : List Nat) : Except Int (List UInt8) × Sys σ :=
  if iov = [] ∨ iovMax < iov.length then (.error (-einval), s)
  else
    match s.fget k fd with
    | none => (.error (-ebadf), s)
    | some f => readvFrom io f iov [] s

/-- The loop of `sys_writev`, which goes on after a short write. -/
def writevFrom (f : Nat) : List (List UInt8) → Int → Sys σ → Int × Sys σ
  | [], total, s => (total, s)
  | b :: bs, total, s =>
    if b = [] then writevFrom f bs total s
    else
      match writeHere io s f b with
      | (.error e, s) => (if total = 0 then e else total, s)
      | (.ok n, s) => writevFrom f bs (total + n) s

def sysWritev (s : Sys σ) (k : Nat) (fd : Int) (iov : List (List UInt8)) : Int × Sys σ :=
  if iov = [] ∨ iovMax < iov.length then (-einval, s)
  else
    match s.fget k fd with
    | none => (-ebadf, s)
    | some f => writevFrom io f iov 0 s

def sysFtruncate (s : Sys σ) (k : Nat) (fd length : Int) : Int × Sys σ :=
  if length < 0 then (-einval, s)
  else
    match s.fget k fd with
    | none => (-ebadf, s)
    | some f =>
      if (s.file f).fMode &&& fmodeWrite = 0 then (-ebadf, s)
      else
        match (s.file f).fInode with
        | none => (0, s)
        | some i => (0, { s with dev := io.setISize s.dev i length.toNat })

def pageSize : Nat := 4096

/-- The pages of a mapping: those of a device, or new ones with what was read from the file. -/
inductive Mapped where
  | device (phys : Nat)
  | pages (l : List (List UInt8))

/-- A page with the bytes of a read in it; zeros if it failed. -/
def pageOf (r : Except Int (List UInt8)) : List UInt8 := bytesOf r ++ List.replicate (pageSize - (bytesOf r).length) 0

/-- The loop of `sys_mmap` over the pages from `offset` on, of which `mem` can be allocated. -/
def mmapPages (f : Nat) : Nat → Nat → Nat → List (List UInt8) → Sys σ → Int × Mapped × Sys σ
  | 0, _, _, l, s => (0, .pages l, s)
  | _ + 1, _, 0, l, s => (-enomem, .pages l, s)
  | n + 1, offset, mem + 1, l, s =>
    let r := vfsRead io s f pageSize offset
    mmapPages f n (offset + pageSize) mem (l ++ [pageOf r.1]) r.2.2

/-- `sys_mmap` of a file; `vaddr` is the address chosen, or the error of choosing one. -/
def sysMmap (s : Sys σ) (k : Nat) (fd : Int) (length offset : Nat) (vaddr : Except Errno Nat) (mem : Nat) :
    Int × Mapped × Sys σ :=
  if length = 0 then (-einval, .pages [], s)
  else if offset % pageSize ≠ 0 then (-einval, .pages [], s)
  else
    match vaddr with
    | .error e => (e, .pages [], s)
    | .ok vaddr =>
      match s.fget k fd with
      | none => (-ebadf, .pages [], s)
      | some f =>
        if io.physAddr (s.file f).fOp (s.file f) s.dev ≠ 0 then
          (vaddr, .device (io.physAddr (s.file f).fOp (s.file f) s.dev + offset), s)
        else
          let r := mmapPages io f ((length + pageSize - 1) / pageSize) offset mem [] s
          (if r.1 < 0 then r.1 else vaddr, r.2)

inductive Whence where
  | seekSet
  | seekCur
  | seekEnd
deriving DecidableEq

/-- The sum is the machine's. -/
def newPos (s : Sys σ) (f offset : Nat) : Whence → Nat
  | .seekSet => offset
  | .seekCur => add64 (s.file f).fPos offset
  | .seekEnd => add64 (((s.file f).fInode.map (io.iSize s.dev)).getD 0) offset

/-- `sys_lseek`; the offset is its 64 bits, and the sign of the new position is its bit 63. -/
def sysLseek (s : Sys σ) (k : Nat) (fd : Int) (offset : Nat) (whence : Whence) : Int × Sys σ :=
  match s.fget k fd with
  | none => (-ebadf, s)
  | some f =>
    if 9223372036854775808 ≤ newPos io s f offset whence then (-einval, s)
    else (newPos io s f offset whence, s.setPos f (newPos io s f offset whence))

/-- `O_APPEND | O_NONBLOCK | O_ASYNC` -/
def setflMask : Nat := 0x2C00

/-- `sys_fcntl` with `F_SETFL`; it takes the entry without `fget`. -/
def sysSetfl (s : Sys σ) (k : Nat) (fd : Int) (arg : Nat) : Int × Sys σ :=
  if fd < 0 ∨ Files.maxFdsPerProcess ≤ fd then (-ebadf, s)
  else
    match (s.fs.entry k fd).file with
    | none => (-ebadf, s)
    | some f =>
      let flags := ((s.file f).fFlags - ((s.file f).fFlags &&& setflMask)) ||| (arg &&& setflMask)
      (0, { s with file := Function.update s.file f { s.file f with fFlags := flags } })

/-! ## `sys_sendfile` -/

/-- `sizeof(buf)`. -/
def bounce : Nat := 4096

/-- `while (w < n)`: what is left of the chunk goes to the console or the file; what it took, and whether it took all. -/
def sendChunk (outFd : Int) (out : Nat) : Nat → List UInt8 → Sys σ → Nat × Sys σ
  | 0, _, s => (0, s)
  | fuel + 1, rest, s =>
    if rest = [] then (0, s)
    else if outFd = 1 ∨ outFd = 2 then (rest.length, s.print rest)
    else
      match writeHere io s out rest with
      | (.error _, s) => (0, s)
      | (.ok n, s) =>
        if n = 0 then (0, s)
        else
          let r := sendChunk outFd out fuel (rest.drop n) s
          (n + r.1, r.2)

/-- `while (total < (s64)count)`: the total, `pos` and the state after it. -/
def sendLoop (outFd : Int) (out inp : Nat) : Nat → Nat → Nat → Nat → Sys σ → Nat × Nat × Sys σ
  | 0, _, pos, total, s => (total, pos, s)
  | fuel + 1, count, pos, total, s =>
    if total < count then
      match vfsRead io s inp (min (count - total) bounce) pos with
      | (.error _, pos, s) => (total, pos, s)
      | (.ok l, pos, s) =>
        if l = [] then (total, pos, s)
        else
          let r := sendChunk io outFd out l.length l s
          if r.1 < l.length then (total + r.1, pos, r.2) else sendLoop outFd out inp fuel count pos (total + r.1) r.2
    else (total, pos, s)

/-- A `size_t` as an `s64`: nothing is sent for one of 2^63 or more. -/
def signedCount (count : Nat) : Nat := if count < 9223372036854775808 then count else 0

/-- `offset` is what `*offset` says, if it is given; the total, and `*offset` after the call. -/
def sysSendfile (s : Sys σ) (k : Nat) (outFd inFd : Int) (offset : Option Nat) (count : Nat) : Int × Option Nat × Sys σ :=
  match s.fget k inFd, s.fget k outFd with
  | some inp, some out =>
    let r := sendLoop io outFd out inp (signedCount count) (signedCount count) (offset.getD (s.file inp).fPos) 0 s
    match offset with
    | none => (r.1, none, r.2.2.setPos inp r.2.1)
    | some _ => (r.1, some r.2.1, r.2.2)
  | _, _ => (-ebadf, offset, s)

/-! ## The loops end -/

variable {io : Fops σ}

/-- Every turn takes a byte of the chunk, so that as many turns as it has bytes are enough. -/
theorem sendChunk_enough (outFd : Int) (out : Nat) : ∀ (n fuel : Nat) (rest : List UInt8) (s : Sys σ), rest.length ≤ n →
    n ≤ fuel → sendChunk io outFd out fuel rest s = sendChunk io outFd out n rest s
  | 0, 0, _, _, _, _ => rfl
  | 0, fuel + 1, rest, s, h, _ => by
    simp only [sendChunk, if_pos (List.length_eq_zero_iff.1 (Nat.le_zero.1 h))]
  | n + 1, fuel + 1, rest, s, h, hf => by
    simp only [sendChunk]
    split
    · rfl
    · split
      · rfl
      · rcases writeHere io s out rest with ⟨e | w, t⟩
        · rfl
        · by_cases hw : w = 0
          · simp only [if_pos hw]
          · simp only [if_neg hw]
            have hle : (rest.drop w).length ≤ n := by rw [List.length_drop]; omega
            rw [sendChunk_enough outFd out n fuel (rest.drop w) t hle (Nat.le_of_succ_le_succ hf)]

/-- Every turn that is followed by another sends a byte. -/
theorem sendLoop_enough (outFd : Int) (out inp : Nat) : ∀ (n fuel count pos total : Nat) (s : Sys σ),
    count - total ≤ n → n ≤ fuel →
    sendLoop io outFd out inp fuel count pos total s = sendLoop io outFd out inp n count pos total s
  | 0, 0, _, _, _, _, _, _ => rfl
  | 0, fuel + 1, count, pos, total, s, h, _ => by
    simp only [sendLoop, if_neg (show ¬total < count by omega)]
  | n + 1, fuel + 1, count, pos, total, s, h, hf => by
    simp only [sendLoop]
    split
    · rcases vfsRead io s inp (min (count - total) bounce) pos with ⟨e | l, p, t⟩
      · rfl
      · by_cases hl : l = []
        · simp only [if_pos hl]
        · have hpos : 0 < l.length := List.length_pos_iff.2 hl
          simp only [if_neg hl]
          split
          · rfl
          · exact sendLoop_enough outFd out inp n fuel count p _ _ (by omega) (Nat.le_of_succ_le_succ hf)
    · rfl

/-! ## What `f_mode` refuses -/

variable {s : Sys σ} {f : Nat}

@[simp] theorem Sys.setPos_self (s : Sys σ) (f : Nat) : s.setPos f (s.file f).fPos = s := by
  simp only [Sys.setPos, Function.update_eq_self]

/-- The error of `vfs_read` and `vfs_write` for a file without the mode, whether it has the operation or not. -/
def refusal {α : Type} (op : Option α) : Int := if op.isSome then -ebadf else -einval

theorem refusal_neg {α : Type} (op : Option α) : refusal op < 0 := by
  unfold refusal
  split <;> decide

theorem refusal_eq {α : Type} (op : Option α) : refusal op = -ebadf ↔ op.isSome = true := by
  unfold refusal
  split
  · rename_i h
    exact iff_of_true rfl h
  · rename_i h
    exact iff_of_false (by decide) h

theorem vfsRead_refused (h : (s.file f).fMode &&& fmodeRead = 0) (count pos : Nat) :
    vfsRead io s f count pos = (.error (refusal (io.read (s.file f).fOp)), pos, s) := by
  unfold vfsRead
  cases io.read (s.file f).fOp with
  | none => rfl
  | some op => exact if_pos h

theorem vfsWrite_refused (h : (s.file f).fMode &&& fmodeWrite = 0) (buf : List UInt8) (pos : Nat) :
    vfsWrite io s f buf pos = (.error (refusal (io.write (s.file f).fOp)), pos, s) := by
  unfold vfsWrite
  cases io.write (s.file f).fOp with
  | none => rfl
  | some op => exact if_pos h

/-- **`readv` of a file that may not be read** fails at its first entry. -/
theorem readvFrom_refused (h : (s.file f).fMode &&& fmodeRead = 0) : ∀ ns : List Nat,
    readvFrom io f ns [] s = (if ∃ n ∈ ns, n ≠ 0 then .error (refusal (io.read (s.file f).fOp)) else .ok [], s)
  | [] => by simp [readvFrom]
  | n :: ns => by
    unfold readvFrom
    by_cases hn : n = 0
    · rw [if_pos hn, readvFrom_refused h ns]
      simp [hn]
    · rw [if_neg hn, readHere, vfsRead_refused h]
      simp [hn]

/-- **`writev` of a file that may not be written** fails at its first buffer with bytes. -/
theorem writevFrom_refused (h : (s.file f).fMode &&& fmodeWrite = 0) : ∀ bs : List (List UInt8),
    writevFrom io f bs 0 s = (if ∃ b ∈ bs, b ≠ [] then refusal (io.write (s.file f).fOp) else 0, s)
  | [] => by simp [writevFrom]
  | b :: bs => by
    unfold writevFrom
    by_cases hb : b = []
    · rw [if_pos hb, writevFrom_refused h bs]
      simp [hb]
    · rw [if_neg hb, writeHere, vfsWrite_refused h]
      simp [hb]

end Transfer
end Pico
