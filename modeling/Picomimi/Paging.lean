import Picomimi.Lib.Word
import Mathlib.Logic.Function.Basic
/-!
# Paging — the page-table walkers of `kernel/init.c` and `fs/vfs_ops.c`

Physical memory is words by address; the kernel reads and writes it through its alias, which maps every physical address
once.  A table is the address of its first word.  Three walkers read the same tables: `vmm_map_page` from the root of
`CR3` (kernel addresses: of `kernel_pml4`), `vmm_unmap_page` from `kernel_pml4`, `vmm_user_virt_to_phys` from `CR3`.
-/
namespace Pico
namespace Paging

open Lib

def pageSize : Nat := 4096
def ptePresent : Nat := 0x1
def pteWrite : Nat := 0x2
def pteUser : Nat := 0x4
def pteHuge : Nat := 0x80
def pteNx : Nat := 0x8000000000000000

/-- The pages `page_bitmap` has a bit for. -/
def bitmapPages : Nat := 65536

structure State where
  mem : Nat → Nat
  pageBitmap : Nat → Bool     -- set: free
  bitmapBase : Nat
  kernelPml4 : Nat
  cr3 : Nat

def pml4Idx (virt : Nat) : Nat := virt / 0x8000000000 % 512
def pdptIdx (virt : Nat) : Nat := virt / 0x40000000 % 512
def pdIdx (virt : Nat) : Nat := virt / 0x200000 % 512
def ptIdx (virt : Nat) : Nat := virt / 0x1000 % 512

/-- The address of `table[i]`. -/
def slot (table i : Nat) : Nat := table + 8 * i

/-- `entry & ~0xFFF`: the table an entry points to. -/
def tableOf (entry : Nat) : Nat := alignDown entry 0x1000

/-- `entry & PTE_PRESENT`. -/
def Present (entry : Nat) : Prop := entry % 2 = 1

/-- `entry & PTE_HUGE`. -/
def Huge (entry : Nat) : Prop := entry / pteHuge % 2 = 1

instance (entry : Nat) : Decidable (Present entry) := inferInstanceAs (Decidable (_ = _))
instance (entry : Nat) : Decidable (Huge entry) := inferInstanceAs (Decidable (_ = _))

/-! The entries of a walk from the table `pml4`, level by level. -/

def pml4Slot (pml4 virt : Nat) : Nat := slot pml4 (pml4Idx virt)

def pdptSlot (mem : Nat → Nat) (pml4 virt : Nat) : Nat := slot (tableOf (mem (pml4Slot pml4 virt))) (pdptIdx virt)

def pdSlot (mem : Nat → Nat) (pml4 virt : Nat) : Nat := slot (tableOf (mem (pdptSlot mem pml4 virt))) (pdIdx virt)

def ptSlot (mem : Nat → Nat) (pml4 virt : Nat) : Nat := slot (tableOf (mem (pdSlot mem pml4 virt))) (ptIdx virt)

def readCr3 (s : State) : Nat := tableOf s.cr3

/-! ## `pmm_alloc_page` -/

/-- The lowest set bit from `i` on. -/
def firstFree (free : Nat → Bool) : Nat → Nat → Option Nat
  | 0, _ => none
  | n + 1, i => if free i then some i else firstFree free n (i + 1)

/-- A page, or 0. -/
def pmmAllocPage (s : State) : Nat × State :=
  match firstFree s.pageBitmap bitmapPages 0 with
  | some i => (s.bitmapBase + i * pageSize, { s with pageBitmap := Function.update s.pageBitmap i false })
  | none => (0, s)

/-! ## `vmm_map_page` -/

def write (s : State) (a v : Nat) : State := { s with mem := Function.update s.mem a v }

/-- The 512 words of a new table. -/
def zeroTable (s : State) (table : Nat) : State :=
  { s with mem := fun a => if table ≤ a ∧ a < table + pageSize then 0 else s.mem a }

/-- The table below `table[index]`, made when there is none; `none` when there is no page for it. -/
def getOrCreateTable (s : State) (table index : Nat) : Option Nat × State :=
  if ¬Present (s.mem (slot table index)) then
    match pmmAllocPage s with
    | (0, s) => (none, s)
    | (newTable, s) =>
      let s := zeroTable s newTable
      let s := write s (slot table index) (newTable ||| ptePresent ||| pteWrite ||| pteUser)
      (some (tableOf (s.mem (slot table index))), s)
  else
    let s := write s (slot table index) (s.mem (slot table index) ||| pteUser)
    (some (tableOf (s.mem (slot table index))), s)

def vmmMapPage (s : State) (virt phys flags : Nat) : State :=
  if virt = 0 then s
  else
    let pgd := if pteNx ≤ virt then s.kernelPml4 else readCr3 s
    match getOrCreateTable s pgd (pml4Idx virt) with
    | (none, s) => s
    | (some pdpt, s) =>
      match getOrCreateTable s pdpt (pdptIdx virt) with
      | (none, s) => s
      | (some pd, s) =>
        match getOrCreateTable s pd (pdIdx virt) with
        | (none, s) => s
        | (some pt, s) =>
          write s (slot pt (ptIdx virt)) (tableOf phys ||| flags &&& 0x0FFF ||| flags &&& pteNx ||| ptePresent)

/-! ## `vmm_user_virt_to_phys` -/

/-- `pte & 0x000FFFFFFFFFF000`. -/
def frameOf (pte : Nat) : Nat := pte / 0x1000 % 0x10000000000 * 0x1000

/-- The translation from the table `pml4`; 0 is not mapped. -/
def virtToPhysIn (mem : Nat → Nat) (pml4 virt : Nat) : Nat :=
  if ¬Present (mem (pml4Slot pml4 virt)) then 0
  else
    let e3 := mem (pdptSlot mem pml4 virt)
    if ¬Present e3 then 0
    else if Huge e3 then alignDown e3 0x40000000 + virt % 0x40000000
    else
      let e2 := mem (pdSlot mem pml4 virt)
      if ¬Present e2 then 0
      else if Huge e2 then alignDown e2 0x200000 + virt % 0x200000
      else
        let e1 := mem (ptSlot mem pml4 virt)
        if ¬Present e1 then 0 else frameOf e1 + virt % 0x1000

def vmmUserVirtToPhys (s : State) (virt : Nat) : Nat := virtToPhysIn s.mem (readCr3 s) virt

/-! ## `vmm_unmap_page` -/

/-- The word `vmm_unmap_page` clears: it walks `kernel_pml4`, and does not look at `PTE_HUGE`. -/
def unmapSlot (s : State) (virt : Nat) : Option Nat :=
  if s.kernelPml4 = 0 then none
  else if ¬Present (s.mem (pml4Slot s.kernelPml4 virt)) then none
  else if ¬Present (s.mem (pdptSlot s.mem s.kernelPml4 virt)) then none
  else if ¬Present (s.mem (pdSlot s.mem s.kernelPml4 virt)) then none
  else some (ptSlot s.mem s.kernelPml4 virt)

def vmmUnmapPage (s : State) (virt : Nat) : State :=
  match unmapSlot s virt with
  | none => s
  | some a => write s a 0

/-- `vmm_unmap_page` on `n` pages from `start` on. -/
def unmapPages (s : State) (start : Nat) : Nat → State
  | 0 => s
  | n + 1 => vmmUnmapPage (unmapPages s start n) (start + n * pageSize)

end Paging
end Pico
