import Picomimi.Lib.Chain
import Picomimi.Lib.Run
import Picomimi.Lib.Word
/-!
# Vma — the VMA lists of `kernel/mmap.c`, `kernel/page_fault.c`, `mm_copy` and `insert_vma`

Every `mm_struct` keeps its areas in one list of `vm_area` nodes; the nodes of all address spaces come from one heap.  A
loop over the list is `nodes`, with a turn for every node there can be (`bound`), or a recursion with that fuel where the
body writes links.  What the page allocator, the file layer and the node allocator answer is the caller's to say: `pages`
is whether every page the call asked for was found, `node` what `vma_alloc` returns.
-/
namespace Pico
namespace Mm

open Lib

def pageSize : Nat := 4096
def pageAlign (x : Nat) : Nat := alignUp x pageSize

def enomem : Int := 12
def ebadf : Int := 9
def einval : Int := 22

def vmRead : Nat := 0x1
def vmWrite : Nat := 0x2
def vmExec : Nat := 0x4
def vmShared : Nat := 0x8
def vmGrowsDown : Nat := 0x100
def vmHeap : Nat := 0x80000
def vmStack : Nat := 0x100000
def vmFile : Nat := 0x200000
def vmCow : Nat := 0x800000

def protRead : Nat := 0x1
def protWrite : Nat := 0x2
def protExec : Nat := 0x4

def mapShared : Nat := 0x01
def mapFixed : Nat := 0x10
def mapAnonymous : Nat := 0x20
def mapGrowsDown : Nat := 0x0100

/-- The default hint of `find_free_vma`. -/
def mmapTop : Nat := 0x00007FFF00000000
def stackGuardGap : Nat := 128 * 1024

/-- `x & bit` as a condition. -/
def has (x bit : Nat) : Bool := x &&& bit != 0

structure Vma where
  start : Nat
  endAddr : Nat
  flags : Nat
  vmFlags : Nat
  pgoff : Nat
deriving DecidableEq

structure MmStruct where
  mmap : Option Nat
  startBrk : Nat
  brk : Nat
  startStack : Nat
  totalVm : Nat

structure State where
  mms : Nat → Option MmStruct
  vmas : Nat → Vma
  links : Dll Nat
  live : Nat → Bool        -- allocated and not freed
  bound : Nat              -- above every node handed out
  kmapPtr : Nat

namespace State

def setMm (s : State) (k : Nat) (mm : MmStruct) : State := { s with mms := Function.update s.mms k (some mm) }

def setVma (s : State) (i : Nat) (v : Vma) : State := { s with vmas := Function.update s.vmas i v }

/-- The nodes a loop over the list visits. -/
def nodes (s : State) (mm : MmStruct) : List Nat := s.links.nodesFrom s.bound mm.mmap

def areas (s : State) (mm : MmStruct) : List Vma := (s.nodes mm).map s.vmas

end State

/-- A cleared node.  An answer that is still live is none the allocator gives, and stands for `NULL`. -/
def vmaAlloc (s : State) : Option Nat → Option Nat × State
  | none => (none, s)
  | some i =>
    if s.live i then (none, s)
    else
      (some i,
        { s with
          vmas := Function.update s.vmas i ⟨0, 0, 0, 0, 0⟩
          links := (s.links.setNext i none).setPrev i none
          live := Function.update s.live i true
          bound := max s.bound (i + 1) })

def vmaFree (s : State) (i : Nat) : State := { s with live := Function.update s.live i false }

/-- The loop of `insert_vma`: the node to follow and the node to precede. -/
def insertPos (s : State) (start : Nat) : Nat → Option Nat → Option Nat → Option Nat × Option Nat
  | 0, prev, _ => (prev, none)
  | _ + 1, prev, none => (prev, none)
  | fuel + 1, _, some cur =>
    if start < (s.vmas cur).start then (s.links.prev cur, some cur)
    else insertPos s start fuel (some cur) (s.links.next cur)

def insertVma (s : State) (k i : Nat) : State :=
  match s.mms k with
  | none => s
  | some mm =>
    let pos := insertPos s (s.vmas i).start s.bound none mm.mmap
    { s with
      links := s.links.splice i pos.1 pos.2
      mms := Function.update s.mms k (some { mm with mmap := if pos.1 = none then some i else mm.mmap }) }

def addTotalVm (s : State) (k n : Nat) : State :=
  match s.mms k with
  | none => s
  | some mm => s.setMm k { mm with totalVm := add64 mm.totalVm n }

def subTotalVm (s : State) (k n : Nat) : State :=
  match s.mms k with
  | none => s
  | some mm => s.setMm k { mm with totalVm := sub64 mm.totalVm n }

/-! ## `sys_mmap` -/

/-- The tries of `find_free_vma`: past the first area in the way, if there is one. -/
def findGap (vs : List Vma) (size : Nat) : Nat → Nat → Nat
  | 0, _ => 0
  | tries + 1, hint =>
    match vs.find? (fun v => hint < v.endAddr ∧ v.start < add64 hint size) with
    | some v => findGap vs size tries (pageAlign v.endAddr)
    | none => hint

def findFreeVma (s : State) (mm : MmStruct) (hint size : Nat) : Nat :=
  let hint := if hint = 0 then sub64 mmapTop size else hint
  findGap (s.areas mm) size 512 (alignDown hint pageSize)

/-- `if (cond) flags |= bit`. -/
def bitIf (cond : Bool) (bit : Nat) : Nat := if cond then bit else 0

def mmapFlags (prot flags : Nat) : Nat :=
  bitIf (has prot protRead) vmRead ||| bitIf (has prot protWrite) vmWrite ||| bitIf (has prot protExec) vmExec |||
    bitIf (has flags mapShared) vmShared ||| bitIf (has flags mapGrowsDown) vmGrowsDown

/-- The address `sys_mmap` decides on. -/
def mmapAddr (s : State) (mm : MmStruct) (addrHint length flags : Nat) : Except Int Nat :=
  if has flags mapFixed then
    if addrHint % pageSize ≠ 0 then .error (-einval) else .ok addrHint
  else
    let vaddr := findFreeVma s mm addrHint length
    if vaddr = 0 then .error (-enomem) else .ok vaddr

/-- Register `[start, end)`, when there is a node for it. -/
def registerVma (s : State) (k : Nat) (v : Vma) (node : Option Nat) : State :=
  match vmaAlloc s node with
  | (none, s) => s
  | (some i, s) => insertVma (s.setVma i v) k i

/-- `sys_mmap`; `fdOk` is whether `fget` finds the file of a mapping that is not anonymous. -/
def sysMmap (s : State) (k addrHint length prot flags offset : Nat) (fdOk pages : Bool) (node : Option Nat) :
    Except Int Nat × State :=
  if length = 0 then (.error (-einval), s)
  else if offset % pageSize ≠ 0 then (.error (-einval), s)
  else
    let length := pageAlign length
    match s.mms k with
    | none => (.ok s.kmapPtr, { s with kmapPtr := add64 s.kmapPtr length })
    | some mm =>
      match mmapAddr s mm addrHint length flags with
      | .error e => (.error e, s)
      | .ok vaddr =>
        if has flags mapAnonymous = false ∧ fdOk = false then (.error (-ebadf), s)
        else if pages = false then (.error (-enomem), s)
        else
          let vmaFlags := mmapFlags prot flags ||| bitIf (has flags mapAnonymous = false) vmFile
          let v : Vma := ⟨vaddr, add64 vaddr length, vmaFlags, vmaFlags, offset / pageSize⟩
          match vmaAlloc s node with
          | (none, s) => (.ok vaddr, s)
          | (some i, s) => (.ok vaddr, addTotalVm (insertVma (s.setVma i v) k i) k (length / pageSize))

/-! ## `sys_munmap` -/

/-- One turn of the loop of `sys_munmap`; `tail` is what `vma_alloc` answers when the area is split. -/
def munmapVma (s : State) (k i start endAddr length : Nat) (tail : Option Nat) : State :=
  let v := s.vmas i
  if v.endAddr ≤ start ∨ endAddr ≤ v.start then s
  else if start ≤ v.start ∧ v.endAddr ≤ endAddr then
    vmaFree (subTotalVm s k (sub64 v.endAddr v.start / pageSize)) i       -- freed and not unlinked
  else if v.start < start ∧ endAddr < v.endAddr then
    let s := registerVma s k ⟨endAddr, v.endAddr, v.flags, v.vmFlags, 0⟩ tail
    subTotalVm (s.setVma i { s.vmas i with endAddr := start }) k (length / pageSize)
  else if v.start < start then
    (subTotalVm s k (sub64 v.endAddr start / pageSize)).setVma i { v with endAddr := start }
  else
    (subTotalVm s k (sub64 endAddr v.start / pageSize)).setVma i { v with start := endAddr }

def munmapLoop (k start endAddr length : Nat) (tails : Nat → Option Nat) : Nat → State → Option Nat → State
  | 0, s, _ => s
  | _ + 1, s, none => s
  | fuel + 1, s, some i =>
    let next := s.links.next i
    munmapLoop k start endAddr length tails fuel (munmapVma s k i start endAddr length (tails i)) next

def sysMunmap (s : State) (k addr length : Nat) (tails : Nat → Option Nat) : Int × State :=
  if addr % pageSize ≠ 0 then (-einval, s)
  else if length = 0 then (-einval, s)
  else
    let length := pageAlign length
    match s.mms k with
    | none => (0, s)
    | some mm => (0, munmapLoop k addr (add64 addr length) length tails s.bound s mm.mmap)

/-! ## `sys_brk` -/

def setBrk (s : State) (k addr : Nat) : State :=
  match s.mms k with
  | none => s
  | some mm => s.setMm k { mm with brk := addr }

def heapEndingAt (s : State) (mm : MmStruct) (growStart : Nat) : Option Nat :=
  (s.nodes mm).find? fun i => has (s.vmas i).flags vmHeap ∧ (s.vmas i).endAddr = growStart

def heapEndingAbove (s : State) (mm : MmStruct) (shrinkStart : Nat) : Option Nat :=
  (s.nodes mm).find? fun i => has (s.vmas i).flags vmHeap ∧ shrinkStart < (s.vmas i).endAddr

/-- The heap area that ends at `growStart`, grown to `newBrk`, or a new one. -/
def brkGrow (s : State) (k : Nat) (mm : MmStruct) (growStart newBrk : Nat) (node : Option Nat) : State :=
  match heapEndingAt s mm growStart with
  | some i => s.setVma i { s.vmas i with endAddr := newBrk }
  | none =>
    match vmaAlloc s node with
    | (none, s) => s
    | (some i, s) =>
      let v : Vma := ⟨growStart, newBrk, vmRead ||| vmWrite ||| vmHeap, vmHeap, 0⟩
      addTotalVm (insertVma (s.setVma i v) k i) k (sub64 newBrk growStart / pageSize)

/-- The first heap area that ends above `shrinkStart`, cut there. -/
def brkShrink (s : State) (mm : MmStruct) (shrinkStart : Nat) : State :=
  match heapEndingAbove s mm shrinkStart with
  | some i =>
    let s' := s.setVma i { s.vmas i with endAddr := shrinkStart }
    if shrinkStart ≤ (s.vmas i).start then vmaFree s' i else s'       -- freed and not unlinked
  | none => s

def sysBrk (s : State) (k addr : Nat) (pages : Bool) (node : Option Nat) : Nat × State :=
  match s.mms k with
  | none => (0x400000, s)
  | some mm =>
    if addr = 0 then (mm.brk, s)
    else if addr < mm.startBrk then (mm.brk, s)
    else if sub64 mm.startStack (128 * 1024) < addr then (mm.brk, s)
    else
      let oldBrk := mm.brk
      let newBrk := pageAlign addr
      if newBrk = oldBrk then (addr, setBrk s k addr)
      else if oldBrk < newBrk then
        if pages = false then (mm.brk, s)
        else (addr, setBrk (brkGrow s k mm (pageAlign oldBrk) newBrk node) k addr)
      else (addr, setBrk (brkShrink s mm newBrk) k addr)

/-! ## `do_page_fault` -/

/-- The loop of `find_vma`: the area `addr` is in, or the lowest one above it. -/
def findVmaFrom (s : State) (addr : Nat) : Option Nat → List Nat → Option Nat
  | best, [] => best
  | best, i :: l =>
    if (s.vmas i).start ≤ addr ∧ addr < (s.vmas i).endAddr then some i
    else if addr < (s.vmas i).start ∧ best.all (fun b => (s.vmas i).start < (s.vmas b).start) then
      findVmaFrom s addr (some i) l
    else findVmaFrom s addr best l

def findVma (s : State) (mm : MmStruct) (addr : Nat) : Option Nat := findVmaFrom s addr none (s.nodes mm)

/-- The area `handle_stack_growth` extends. -/
def stackVma (s : State) (mm : MmStruct) (faultAddr : Nat) : Option Nat :=
  (s.nodes mm).find? fun i =>
    has (s.vmas i).vmFlags (vmGrowsDown ||| vmStack) ∧ faultAddr < (s.vmas i).start ∧
      sub64 (s.vmas i).start stackGuardGap ≤ faultAddr

/-- The area grows whether or not a page is found for it. -/
def handleStackGrowth (s : State) (mm : MmStruct) (faultAddr : Nat) (page : Bool) : Int × State :=
  match stackVma s mm faultAddr with
  | none => (-1, s)
  | some i => (if page then 0 else -1, s.setVma i { s.vmas i with start := alignDown faultAddr pageSize })

/-- `page` is whether the page it copies is mapped and a new one was found. -/
def handleCow (s : State) (i : Nat) (page : Bool) : Int × State :=
  if page then (0, s.setVma i { s.vmas i with vmFlags := (s.vmas i).vmFlags &&& (0xFFFFFFFF ^^^ vmCow) }) else (-1, s)

def doPageFault (s : State) (k faultAddr : Nat) (present write user page : Bool) : Int × State :=
  if user = false ∨ faultAddr < 0x1000 then (-1, s)
  else
    match s.mms k with
    | none => (-1, s)
    | some mm =>
      match findVma s mm faultAddr with
      | none => handleStackGrowth s mm faultAddr page
      | some i =>
        let v := s.vmas i
        if faultAddr < v.start ∨ v.endAddr ≤ faultAddr then handleStackGrowth s mm faultAddr page
        else if present ∧ write then
          if has v.vmFlags vmWrite then handleCow s i page else (-1, s)
        else if present then (-1, s)
        else if has v.vmFlags vmRead = false ∧ has v.vmFlags vmExec = false then (-1, s)
        else (if page then 0 else -1, s)

/-! ## `mm_copy` -/

/-- The loop of `mm_free`. -/
def mmFreeVmas : Nat → State → Option Nat → State
  | 0, s, _ => s
  | _ + 1, s, none => s
  | fuel + 1, s, some i => mmFreeVmas fuel (vmaFree s i) (s.links.next i)

/-- `*new_vma_ptr = vma`, where `new_vma_ptr` is `&new->mmap` at first and then the `next` of the last copy. -/
def linkCopy (s : State) (tail : Option Nat) (c : Nat) : State :=
  match tail with
  | none => s
  | some t => { s with links := s.links.setNext t (some c) }

/-- The copying loop of `mm_copy`, with the list copied so far (its head and its last node); `nodes` is what the allocator
answers for the copy of each node.  `prev` stays `NULL` in every copy. -/
def copyVmas (nodes : Nat → Option Nat) :
    Nat → State → Option Nat → Option Nat → Option Nat → Option (Option Nat) × State
  | 0, s, _, head, _ => (some head, s)
  | _ + 1, s, none, head, _ => (some head, s)
  | fuel + 1, s, some i, head, tail =>
    match vmaAlloc s (nodes i) with
    | (none, s) => (none, mmFreeVmas s.bound s head)
    | (some c, s) =>
      let s := linkCopy (s.setVma c (s.vmas i)) tail c
      copyVmas nodes fuel s (s.links.next i) (if tail = none then some c else head) (some c)

/-- `mm_copy` of the address space `k`; `new` is what `mm_alloc` answers. -/
def mmCopy (s : State) (k : Nat) (new : Option Nat) (nodes : Nat → Option Nat) : Option Nat × State :=
  match s.mms k, new with
  | some old, some j =>
    if (s.mms j).isSome then (none, s)
    else
      match copyVmas nodes s.bound s old.mmap none none with
      | (none, s) => (none, s)
      | (some head, s) => (some j, s.setMm j ⟨head, old.startBrk, old.brk, old.startStack, 0⟩)
  | _, _ => (none, s)

/-! ## The machine -/

inductive Op where
  | mmap (k addrHint length prot flags offset : Nat) (fdOk pages : Bool) (node : Option Nat)
  | munmap (k addr length : Nat) (tails : Nat → Option Nat)
  | brk (k addr : Nat) (pages : Bool) (node : Option Nat)
  | pageFault (k faultAddr : Nat) (present write user page : Bool)
  | mmCopy (k : Nat) (new : Option Nat) (nodes : Nat → Option Nat)
  | insertVma (k : Nat) (v : Vma) (node : Option Nat)

/-- One step; the arguments are `u64`s. -/
def step (s : State) : Op → Option State
  | .mmap k addrHint length prot flags offset fdOk pages node =>
    if addrHint < word64 ∧ length < word64 then
      some (sysMmap s k addrHint length prot flags offset fdOk pages node).2
    else none
  | .munmap k addr length tails =>
    if addr < word64 ∧ length < word64 then some (sysMunmap s k addr length tails).2 else none
  | .brk k addr pages node => if addr < word64 then some (sysBrk s k addr pages node).2 else none
  | .pageFault k faultAddr present write user page =>
    if faultAddr < word64 then some (doPageFault s k faultAddr present write user page).2 else none
  | .mmCopy k new nodes => some (mmCopy s k new nodes).2
  | .insertVma k v node =>
    if v.start < word64 ∧ v.endAddr < word64 then some (registerVma s k v node) else none

/-- From any address spaces without areas. -/
def machine : Machine State Op where
  init s := (∀ k mm, s.mms k = some mm → mm.mmap = none) ∧ ∀ i, s.live i = true → i < s.bound
  step := step

end Mm
end Pico
