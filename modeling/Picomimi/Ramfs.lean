import Picomimi.Lib.Sparse
import Picomimi.SlabFrame
/-!
# Ramfs — a regular file of `fs/ramfs.c` on the kernel heap

A file is a buffer of the heap, the size of the file in it and the capacity of the buffer; `i_size` in the inode is a second
copy of the size.  A count or a position is a `u64`, and so is a signed size, by its bits.  `memcpy` to `NULL` happens only with
no bytes to copy.  The other clients of the heap take their steps between the calls.
-/
namespace Pico
namespace Ramfs

open Lib Slab

def eio : Int := 5
def enomem : Int := 12

/-- `__GFP_WAIT | __GFP_IO | __GFP_FS`: the block is not cleared. -/
def gfpKernel : Nat := 0xD0

structure RamfsInode where
  data : Option Nat
  size : Nat
  capacity : Nat
deriving DecidableEq

structure Inode where
  iSize : Nat
  iPrivate : Option RamfsInode
deriving DecidableEq

/-- What `ramfs_create` makes. -/
def emptyFile : Inode := ⟨0, some ⟨none, 0, 0⟩⟩

/-- The bytes copied to the caller, whose number is returned, and `*ppos` after the call. -/
def ramfsRead (m : Mem) (inode : Inode) (count pos : Nat) : List UInt8 × Nat :=
  match inode.iPrivate with
  | none => ([], pos)
  | some ri =>
    match ri.data with
    | none => ([], pos)
    | some data =>
      if ri.size ≤ pos then ([], pos)
      else
        let count := if ri.size < add64 pos count then ri.size - pos else count
        (m.bytes (data + pos) count, add64 pos count)

def newCap (fin : Nat) : Nat :=
  let newCap := fin * 2 % word64
  if newCap < 4096 then 4096 else newCap

/-- `if (ri->data) { memcpy(new_data, ri->data, ri->size); kfree(ri->data); }` -/
def moveBuffer (h : Heap) (ri : RamfsInode) (newData : Nat) : Heap :=
  match ri.data with
  | none => h
  | some data => kfree { h with heap := h.heap.copy newData (h.heap.bytes data ri.size) } (some data)

/-- `Grow buffer if needed`; no result when there is no memory. -/
def growBuffer (h : Heap) (ri : RamfsInode) (fin : Nat) : Option RamfsInode × Heap :=
  if ri.capacity < fin then
    match kmalloc h (newCap fin) gfpKernel with
    | (none, h) => (none, h)
    | (some newData, h) => (some { ri with data := some newData, capacity := newCap fin }, moveBuffer h ri newData)
  else (some ri, h)

/-- The count or the error, and the heap, the inode and `*ppos` after the call. -/
def ramfsWrite (h : Heap) (inode : Inode) (buf : List UInt8) (pos : Nat) : Except Int Nat × Heap × Inode × Nat :=
  match inode.iPrivate with
  | none => (.error (-eio), h, inode, pos)
  | some ri =>
    let fin := add64 pos buf.length
    match growBuffer h ri fin with
    | (none, h) => (.error (-enomem), h, inode, pos)
    | (some ri, h) =>
      let h := { h with heap := h.heap.copy (ri.data.getD 0 + pos) buf }
      let inode := if ri.size < fin then ⟨fin, some { ri with size := fin }⟩ else { inode with iPrivate := some ri }
      (.ok buf.length, h, inode, fin)

/-! ## One file among the clients of the heap -/

/-- The heap and its clients, the file, and the writes to it that returned a count, the newest first. -/
structure State where
  slab : Slab.State
  inode : Inode
  writes : List (Patch UInt8)

inductive Op where
  | write (pos : Nat) (buf : List UInt8)
  | other (op : Slab.Op)

def Inode.data (inode : Inode) : Option Nat := inode.iPrivate.bind RamfsInode.data

/-- The clients after a write: a new buffer is held and the old one given back. -/
def holders (live : List Client) (before after : Inode) : List Client :=
  match after.iPrivate with
  | some ⟨some newData, _, capacity⟩ =>
    if before.data = some newData then live
    else (⟨newData, capacity⟩ :: live).filter fun c => some c.ptr ≠ before.data
  | _ => live

def State.write (s : State) (pos : Nat) (buf : List UInt8) : State :=
  let r := ramfsWrite s.slab.h s.inode buf pos
  { slab := ⟨r.2.1, holders s.slab.live s.inode r.2.2.1⟩
    inode := r.2.2.1
    writes := match r.1 with
      | .ok _ => ⟨pos, buf⟩ :: s.writes
      | .error _ => s.writes }

/-- One step: a write whose end can be represented, or a step of another client on a block of its own. -/
def step (s : State) : Op → Option State
  | .write pos buf => if pos + buf.length < word64 then some (s.write pos buf) else none
  | .other op =>
    if s.inode.data.all op.spares then (Slab.step s.slab op).map fun t => { s with slab := t } else none

/-- A new file, with the heap as `slab_init` leaves it. -/
def machine : Machine State Op where
  init s := Slab.machine.init s.slab ∧ s.inode = emptyFile ∧ s.writes = []
  step := step

/-- What the hole of a write will read as: the bytes of the buffer at `data` between the end of the file and `pos`. -/
def HoleClear (h : Heap) (data : Option Nat) (size pos : Nat) : Prop :=
  ∀ p ∈ data, ∀ k < pos, size ≤ k → h.heap (p + k) = 0

/-- The sums of a request of `size` bytes do not wrap. -/
def SumsFit (h : Heap) (size : Nat) : Prop :=
  size + 15 < word64 ∧ h.heapBump + (slabHdrSz + alignUp size 16) < word64

/-- **The write leaves no stale byte**: the buffer it stores into, the one there or the one it gets, is clear in the hole, and
the one it gets reaches to the end of the write. -/
def WriteOk (s : State) : Op → Prop
  | .write pos buf => ∀ ri ∈ s.inode.iPrivate,
    if ri.capacity < pos + buf.length then
      SumsFit s.slab.h (newCap (pos + buf.length)) ∧
      ((blockFor s.slab.h (newCap (pos + buf.length))).isSome → pos + buf.length ≤ newCap (pos + buf.length)) ∧
      HoleClear s.slab.h (blockFor s.slab.h (newCap (pos + buf.length))) ri.size pos
    else HoleClear s.slab.h ri.data ri.size pos
  | .other _ => True

instance (h : Heap) (data : Option Nat) (size pos : Nat) : Decidable (HoleClear h data size pos) :=
  inferInstanceAs (Decidable (∀ p ∈ data, ∀ k < pos, size ≤ k → h.heap (p + k) = 0))

instance (h : Heap) (size : Nat) : Decidable (SumsFit h size) := inferInstanceAs (Decidable (_ ∧ _))

instance (s : State) : ∀ op, Decidable (WriteOk s op)
  | .write pos buf => inferInstanceAs (Decidable (∀ ri ∈ s.inode.iPrivate, if ri.capacity < pos + buf.length then _ else _))
  | .other _ => inferInstanceAs (Decidable True)

end Ramfs
end Pico
