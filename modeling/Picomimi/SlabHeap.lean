import Picomimi.Lib.Bytes
import Picomimi.Lib.Word
/-!
# SlabHeap — the kernel heap of `kernel/init.c`

`heap` is one array of bytes; a block is an 8-byte header `[size:u32][magic:u32]` and its payload, and the next header
follows.  A pointer is an offset into the array (`none` is `NULL`).  The counters are `size_t` and wrap.  `firstFit` is
the search loop of `kmalloc`: every turn moves at least a header forward, so `heap_bump + 1` turns are never used up
(`firstFit_none`, `SlabBlocks`).
-/
namespace Pico
namespace Slab

open Lib

def slabMagicAlloc : Nat := 0xA110CA7E
def slabMagicFree : Nat := 0xFEE1DEAD
def slabHdrSz : Nat := 8
def heapSize : Nat := 64 * 1024 * 1024
def gfpZero : Nat := 0x100

structure SlabHdr where
  size : Nat
  magic : Nat
deriving DecidableEq

structure Heap where
  heap : Mem
  heapBump : Nat
  heapUsed : Nat
  heapFreed : Nat

def hdrAt (m : Mem) (off : Nat) : SlabHdr := ⟨m.read32 off, m.read32 (off + 4)⟩

def setSize (m : Mem) (off size : Nat) : Mem := m.write32 off size

def setMagic (m : Mem) (off magic : Nat) : Mem := m.write32 (off + 4) magic

def slabInit (h : Heap) : Heap := { h with heapBump := 0, heapUsed := 0, heapFreed := 0 }

/-- Carve a new block from the virgin region. -/
def slabBump (h : Heap) (payload : Nat) : Option Nat × Heap :=
  let total := add64 slabHdrSz payload
  if heapSize < add64 h.heapBump total then (none, h)
  else
    (some (h.heapBump + slabHdrSz),
      { heap := setMagic (setSize h.heap h.heapBump payload) h.heapBump slabMagicAlloc
        heapBump := add64 h.heapBump total
        heapUsed := add64 h.heapUsed payload
        heapFreed := h.heapFreed })

/-- The header of the first free block of at least `size` bytes, searched from `off`. -/
def firstFit (m : Mem) (bump size : Nat) : Nat → Nat → Option Nat
  | 0, _ => none
  | fuel + 1, off =>
    if off + slabHdrSz ≤ bump then
      let hdr := hdrAt m off
      if hdr.magic = slabMagicFree ∧ size ≤ hdr.size then some off
      else firstFit m bump size fuel (off + slabHdrSz + hdr.size)
    else none

/-- Hand out the free block at `off`: split it when the rest can hold a header and 16 bytes, else take it whole. -/
def takeBlock (h : Heap) (off size : Nat) : Heap :=
  let hdr := hdrAt h.heap off
  if size + slabHdrSz + 16 ≤ hdr.size then
    let leftover := hdr.size - size - slabHdrSz
    let tail := off + slabHdrSz + size
    let m := setMagic (setSize (setMagic (setSize h.heap tail leftover) tail slabMagicFree) off size) off slabMagicAlloc
    { h with heap := m, heapUsed := add64 h.heapUsed (hdrAt m off).size }
  else
    let m := setMagic h.heap off slabMagicAlloc
    { h with
      heap := m
      heapFreed := sub64 h.heapFreed hdr.size
      heapUsed := add64 h.heapUsed (hdrAt m off).size }

/-- `if (flags & __GFP_ZERO) memset(ptr, 0, size)`. -/
def zeroPayload (h : Heap) (flags ptr size : Nat) : Heap :=
  if flags &&& gfpZero = 0 then h else { h with heap := h.heap.fill ptr size 0 }

def kmalloc (h : Heap) (size flags : Nat) : Option Nat × Heap :=
  if size = 0 then (none, h)
  else
    let size := alignUp size 16
    match if 0 < h.heapFreed then firstFit h.heap h.heapBump size (h.heapBump + 1) 0 else none with
    | some off => (some (off + slabHdrSz), zeroPayload (takeBlock h off size) flags (off + slabHdrSz) size)
    | none =>
      match slabBump h size with
      | (none, h') => (none, h')
      | (some ptr, h') => (some ptr, zeroPayload h' flags ptr size)

def kfree (h : Heap) : Option Nat → Heap
  | none => h
  | some ptr =>
    let off := ptr - slabHdrSz
    let hdr := hdrAt h.heap off
    if hdr.magic = slabMagicFree then h            -- double free: reported, nothing changes
    else if hdr.magic ≠ slabMagicAlloc then h      -- corrupt header: reported, nothing changes
    else
      let m := setMagic h.heap off slabMagicFree
      let used := sub64 h.heapUsed hdr.size
      let freed := add64 h.heapFreed hdr.size
      let nextOff := off + slabHdrSz + hdr.size
      if nextOff + slabHdrSz ≤ h.heapBump ∧ (hdrAt m nextOff).magic = slabMagicFree then
        { h with
          heap := setSize m off (hdr.size + slabHdrSz + (hdrAt m nextOff).size)
          heapUsed := used
          heapFreed := sub64 freed slabHdrSz }
      else { h with heap := m, heapUsed := used, heapFreed := freed }

/-! ## Headers under writes -/

@[simp] theorem hdrAt_setSize (m : Mem) (off size : Nat) :
    hdrAt (setSize m off size) off = ⟨size % 4294967296, (hdrAt m off).magic⟩ := by
  simp only [hdrAt, setSize, Mem.read32_write32, SlabHdr.mk.injEq, true_and]
  exact Mem.read32_write32_of_apart m size (.inl (Nat.le_refl _))

@[simp] theorem hdrAt_setMagic (m : Mem) (off magic : Nat) :
    hdrAt (setMagic m off magic) off = ⟨(hdrAt m off).size, magic % 4294967296⟩ := by
  simp only [hdrAt, setMagic, Mem.read32_write32, SlabHdr.mk.injEq, and_true]
  exact Mem.read32_write32_of_apart m magic (.inr (Nat.le_refl _))

theorem hdrAt_setSize_of_apart (m : Mem) {off x : Nat} (size : Nat) (h : off + slabHdrSz ≤ x ∨ x + slabHdrSz ≤ off) :
    hdrAt (setSize m off size) x = hdrAt m x := by
  unfold slabHdrSz at h
  simp only [hdrAt, setSize]
  rw [Mem.read32_write32_of_apart m size (by omega), Mem.read32_write32_of_apart m size (by omega)]

theorem hdrAt_setMagic_of_apart (m : Mem) {off x : Nat} (magic : Nat)
    (h : off + slabHdrSz ≤ x ∨ x + slabHdrSz ≤ off) : hdrAt (setMagic m off magic) x = hdrAt m x := by
  unfold slabHdrSz at h
  simp only [hdrAt, setMagic]
  rw [Mem.read32_write32_of_apart m magic (by omega), Mem.read32_write32_of_apart m magic (by omega)]

theorem hdrAt_write8_of_apart (m : Mem) {a x : Nat} (v : UInt8) (h : a < x ∨ x + slabHdrSz ≤ a) :
    hdrAt (m.write8 a v) x = hdrAt m x := by
  unfold slabHdrSz at h
  simp only [hdrAt]
  rw [Mem.read32_write8_of_apart m v (by omega), Mem.read32_write8_of_apart m v (by omega)]

theorem hdrAt_fill_of_apart (m : Mem) {a n x : Nat} (v : UInt8) (h : a + n ≤ x ∨ x + slabHdrSz ≤ a) :
    hdrAt (m.fill a n v) x = hdrAt m x := by
  unfold slabHdrSz at h
  simp only [hdrAt]
  rw [Mem.read32_fill_of_apart m v (by omega), Mem.read32_fill_of_apart m v (by omega)]

theorem hdrAt_copy_of_apart (m : Mem) {a x : Nat} {l : List UInt8} (h : a + l.length ≤ x ∨ x + slabHdrSz ≤ a) :
    hdrAt (m.copy a l) x = hdrAt m x := by
  unfold slabHdrSz at h
  simp only [hdrAt]
  rw [Mem.read32_congr (fun y h1 h2 => m.copy_of_apart (by omega)),
    Mem.read32_congr (fun y h1 h2 => m.copy_of_apart (by omega))]

end Slab
end Pico
