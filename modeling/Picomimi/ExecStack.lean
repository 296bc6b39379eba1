import Picomimi.ExecView
import Picomimi.Lib.ByteView
/-!
# ExecStack — `build_user_stack`

The stack is built in the new address space, through its page tables: a write to a page that is not mapped is a page fault
and has no result.  `sp` goes down from the top: the platform string, the random bytes, the strings of `envp` and of `argv`,
the last one first, a pad, and then the words.
-/
namespace Pico
namespace Exec

open Lib Paging AddrSpace

def userStackTop : Nat := 0x00007FFFFFFFE000
def userStackSize : Nat := 2 * 1024 * 1024
def stackBase : Nat := userStackTop - userStackSize

/-- A string of C: the bytes before the 0. -/
structure CStr where
  bytes : List UInt8
  noNul : 0 ∉ bytes

/-- What `strlen(str) + 1` bytes hold. -/
def CStr.cells (str : CStr) : List UInt8 := str.bytes ++ [0]

/-! ## Writes -/

/-- `memcpy` to an address of the current address space. -/
def writeUser : State → Nat → List UInt8 → Option State
  | s, _, [] => some s
  | s, a, b :: l =>
    match vmmUserVirtToPhys s a with
    | 0 => none
    | phys => writeUser (copyTo s phys [b]) (add64 a 1) l

/-- The address space, and `sp`. -/
structure Stack where
  pt : State
  sp : Nat

namespace Stack

/-- `sp -= n`. -/
def down (st : Stack) (n : Nat) : Stack := { st with sp := sub64 st.sp n }

/-- `sp &= ~0xF`. -/
def align (st : Stack) : Stack := { st with sp := alignDown st.sp 16 }

def store (st : Stack) (data : List UInt8) : Option Stack := (writeUser st.pt st.sp data).map fun pt => ⟨pt, st.sp⟩

end Stack

/-- `PUSH_STR`. -/
def pushStr (st : Stack) (str : CStr) : Option Stack := (st.down str.cells.length).store str.cells

/-- `PUSH64`. -/
def push64 (st : Stack) (v : Nat) : Option Stack := (st.down 8).store (leBytes 8 v)

/-- `for (i = n - 1; i >= 0; i--) ptrs[i] = PUSH_STR(strs[i])`. -/
def pushStrs (st : Stack) : List CStr → Option (List Nat × Stack)
  | [] => some ([], st)
  | str :: l => do
    let (ptrs, st) ← pushStrs st l
    let st ← pushStr st str
    some (st.sp :: ptrs, st)

/-- `PUSH64` of one word after another. -/
def pushWords (st : Stack) : List Nat → Option Stack
  | [] => some st
  | w :: l => do
    let st ← push64 st w
    pushWords st l

/-! ## The auxiliary vector -/

def atPhdr : Nat := 3
def atPhent : Nat := 4
def atPhnum : Nat := 5
def atPagesz : Nat := 6
def atBase : Nat := 7
def atFlags : Nat := 8
def atEntry : Nat := 9
def atPlatform : Nat := 15
def atHwcap : Nat := 16
def atClktck : Nat := 17
def atSecure : Nat := 23
def atRandom : Nat := 25
def atHwcap2 : Nat := 26
def atExecfn : Nat := 31

/-- The header, with the field that only the stack has a use for. -/
structure StackEhdr extends Elf64Ehdr where
  eEntry : Nat

/-- Where the program headers are in memory, by the first `PT_LOAD`. -/
def phdrAddr (ehdr : StackEhdr) (phdrs : List Elf64Phdr) (loadBias : Nat) : Nat :=
  match (phdrs.take ehdr.ePhnum).find? (·.pType = ptLoad) with
  | some p => add64 (add64 (sub64 p.pVaddr p.pOffset) ehdr.ePhoff) loadBias
  | none => add64 loadBias ehdr.ePhoff

/-- The entries, in the order they are pushed in, each with its type first. -/
def auxEntries (ehdr : StackEhdr) (phdrs : List Elf64Phdr) (loadBias interpBase platform random execfn : Nat) :
    List (Nat × Nat) :=
  [(atSecure, 0), (atPlatform, platform), (atRandom, random), (atHwcap2, 0), (atHwcap, 0x1f8bfbff), (atClktck, 100),
    (atFlags, 0), (atBase, interpBase), (atEntry, add64 ehdr.eEntry loadBias), (atPagesz, pageSize), (atPhnum, ehdr.ePhnum),
    (atPhent, 56), (atPhdr, phdrAddr ehdr phdrs loadBias), (atExecfn, execfn)]

def nAuxv : Nat := 14

/-- `total_words`. -/
def totalWords (argc envc : Nat) : Nat := 1 + (argc + 1) + (envc + 1) + (nAuxv + 1) * 2

/-! ## `build_user_stack` -/

/-- What the allocators answer, and where the literal `""` is. -/
structure StackAnswers where
  node : Option Nat
  envpPtrs : Bool
  argvPtrs : Bool
  emptyStr : Nat

/-- `"x86_64"` and its 0. -/
def platformCells : List UInt8 := [0x78, 0x38, 0x36, 0x5F, 0x36, 0x34, 0]

/-- No `prng_next` is linked in: it is static where it is. -/
def randomWord : Nat := 0xDEADBEEFCAFEBABE

/-- The words, from the end of the auxiliary vector down to `argc`. -/
def pushVectors (st : Stack) (argc : Nat) (argvPtrs envpPtrs : List Nat) (aux : List (Nat × Nat)) : Option Stack := do
  let st ← pushWords st [0, 0]
  let st ← pushWords st (aux.flatMap fun e => [e.2, e.1])
  let st ← pushWords st (0 :: envpPtrs.reverse)
  let st ← pushWords st (0 :: argvPtrs.reverse)
  push64 st argc

/-- The stack from its top; 0 when a pointer array is not found. -/
def fillStack (pt : State) (a : StackAnswers) (argv envp : List CStr) (ehdr : StackEhdr) (phdrs : List Elf64Phdr)
    (loadBias interpBase : Nat) : Option (Nat × State) := do
  let st ← (Stack.down ⟨pt, userStackTop⟩ 16).align.store platformCells
  let platform := st.sp
  let st ← (st.down 16).align.store (leBytes 8 randomWord ++ leBytes 8 randomWord)
  let random := st.sp
  if a.envpPtrs = false then some (0, st.pt)
  else
    let (envpPtrs, st) ← pushStrs st envp
    if a.argvPtrs = false then some (0, st.pt)
    else
      let (argvPtrs, st) ← pushStrs st argv
      let st := st.align
      let st := if totalWords argv.length envp.length % 2 ≠ 0 then st.down 8 else st
      let aux := auxEntries ehdr phdrs loadBias interpBase platform random (argvPtrs.headD a.emptyStr)
      let st ← pushVectors st argv.length argvPtrs envpPtrs aux
      some (st.sp, st.pt)

/-- The area of the stack; without a `vm_area` there is none. -/
def stackArea (vm : Mm.State) (mm node : Option Nat) : Mm.State :=
  match mm with
  | none => vm
  | some k =>
    match Mm.vmaAlloc vm node with
    | (none, vm) => vm
    | (some i, vm) =>
      let flags := Mm.vmRead ||| Mm.vmWrite ||| Mm.vmGrowsDown
      let vm := Mm.insertVma (vm.setVma i ⟨stackBase, userStackTop, flags, Mm.vmGrowsDown, 0⟩) k i
      match vm.mms k with
      | none => vm
      | some m => vm.setMm k { m with startStack := userStackTop }

/-- The stack pointer, or 0; `argv` and `envp` may be `NULL`, which is no string. -/
def buildUserStack (s : System) (mm : Option Nat) (a : StackAnswers) (argv envp : List CStr) (ehdr : StackEhdr)
    (phdrs : List Elf64Phdr) (loadBias interpBase : Nat) : Option (Nat × System) :=
  match vmmAllocPages s.pt stackBase userStackSize (vmmProtRead ||| vmmProtWrite ||| vmmProtUser) with
  | (0, pt) => some (0, { s with pt := pt })
  | (_, pt) => do
    let pt ← writeUser pt stackBase (List.replicate userStackSize 0)
    let (sp, pt) ← fillStack pt a argv envp ehdr phdrs loadBias interpBase
    some (sp, ⟨stackArea s.vm mm a.node, pt, s.pgd⟩)

end Exec
end Pico
