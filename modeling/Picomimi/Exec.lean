import Picomimi.AddrSpace
import Picomimi.Lib.WordBytes
/-!
# Exec — `do_execve` up to the loaded segments, for ELF64 and Mach-O files

The file is its bytes.  A segment is loaded in three loops: `vmm_alloc_pages` maps a fresh page for each page of its range,
whether one is mapped there or not; the pages that are then mapped are zeroed; the file's bytes are copied page by page.
Each loop uses the addresses the file gives as they are.  `elf_load_segment` and `macho_load_segment64` are one `mapSegment`
but for where the addresses come from.
-/
namespace Pico
namespace Exec

open Lib Paging AddrSpace

def enomem : Int := 12
def enoexec : Int := 8
def efault : Int := 14
def eio : Int := 5

/-- What the allocators answer: the `mm_struct`, whether the loader's buffers are found, the `vm_area` nodes. -/
structure Answers where
  mm : Option Nat
  bufs : Bool
  nodes : Nat → Option Nat

/-! ## The file -/

/-- `vfs_read` of `count` bytes from `pos`: fewer at the end of the file. -/
def vfsRead (file : List UInt8) (count pos : Nat) : List UInt8 := (file.drop pos).take count

/-- The field of `n` bytes at `off`, the lowest byte first. -/
def field (buf : List UInt8) (off n : Nat) : Nat := ((buf.drop off).take n).foldr (fun b v => b.toNat + 256 * v) 0

/-! ## `vmm_alloc_pages` -/

def vmmProtRead : Nat := 0x01
def vmmProtWrite : Nat := 0x02
def vmmProtExec : Nat := 0x04
def vmmProtUser : Nat := 0x08

def vmmFlags (prot : Nat) : Nat :=
  ptePresent ||| Mm.bitIf (Mm.has prot vmmProtUser) pteUser ||| Mm.bitIf (Mm.has prot vmmProtWrite) pteWrite |||
    Mm.bitIf (Mm.has prot vmmProtExec = false) pteNx

/-- The loop, from the offset `off` on; `false` when it runs out of pages. -/
def vmmAllocLoop (virt flags : Nat) : Nat → Nat → State → Bool × State
  | 0, _, s => (true, s)
  | n + 1, off, s =>
    match pmmAllocPage s with
    | (0, s) => (false, s)
    | (phys, s) => vmmAllocLoop virt flags n (off + pageSize) (vmmMapPage s (add64 virt off) phys flags)

/-- `vmm_alloc_pages`: the address, or 0. -/
def vmmAllocPages (s : State) (virt size prot : Nat) : Nat × State :=
  match vmmAllocLoop virt (vmmFlags prot) ((size + (pageSize - 1)) / pageSize) 0 s with
  | (false, s) => (0, s)
  | (true, s) => (virt, s)

/-! ## A segment -/

/-- What the loaders take from a program header or a load command. -/
structure Segment where
  vaddr : Nat
  memsz : Nat
  filesz : Nat
  offset : Nat
  prot : Nat        -- for `vmm_alloc_pages`
  flags : Nat       -- of the area

namespace Segment

def mapStart (g : Segment) : Nat := alignDown g.vaddr pageSize
def mapEnd (g : Segment) : Nat := Mm.pageAlign (add64 g.vaddr g.memsz)
def mapSize (g : Segment) : Nat := sub64 g.mapEnd g.mapStart

end Segment

/-- The page is zeroed, if it is mapped. -/
def zeroPage (s : State) (pg : Nat) : State :=
  let phys := vmmUserVirtToPhys s pg
  if phys ≠ 0 then fillPage s phys fun _ => 0 else s

/-- `memcpy` to a physical address. -/
def copyTo (s : State) (dest : Nat) (data : List UInt8) : State := { s with mem := storeBytes s.mem dest data }

/-- The copying loop.  Every turn reads a byte or more: as many turns as bytes remain are enough. -/
def copyFile (file : List UInt8) : Nat → State → Nat → Nat → Nat → Int × State
  | 0, s, _, _, _ => (0, s)
  | fuel + 1, s, copyVaddr, remaining, filePos =>
    if remaining = 0 then (0, s)
    else
      let pgBase := alignDown copyVaddr pageSize
      let pgOff := copyVaddr - pgBase
      let chunk := min remaining (pageSize - pgOff)
      let phys := vmmUserVirtToPhys s pgBase
      if phys = 0 then (-efault, s)
      else
        match vfsRead file chunk filePos with
        | [] => (-eio, s)
        | data =>
          copyFile file fuel (copyTo s (phys + pgOff) data) (add64 copyVaddr data.length) (remaining - data.length)
            (filePos + data.length)

/-- The three loops. -/
def loadSegment (file : List UInt8) (s : State) (g : Segment) : Int × State :=
  match vmmAllocPages s g.mapStart g.mapSize g.prot with
  | (0, s) => (-enomem, s)
  | (_, s) =>
    copyFile file g.filesz ((pagesOf g.mapStart g.mapEnd).foldl zeroPage s) g.vaddr g.filesz g.offset

/-- The area of the segment. -/
def segmentArea (vm : Mm.State) (k : Nat) (g : Segment) (node : Option Nat) : Mm.State :=
  match Mm.vmaAlloc vm node with
  | (none, vm) => vm
  | (some i, vm) =>
    Mm.addTotalVm (Mm.insertVma (vm.setVma i ⟨g.mapStart, g.mapEnd, g.flags, 0, 0⟩) k i) k (g.mapSize / pageSize)

def mapSegment (file : List UInt8) (s : System) (k : Nat) (node : Option Nat) (g : Segment) : Int × System :=
  match loadSegment file s.pt g with
  | (r, pt) => if r < 0 then (r, { s with pt := pt }) else (0, ⟨segmentArea s.vm k g node, pt, s.pgd⟩)

/-! ## A new address space -/

/-- `mm_alloc`. -/
def mmAlloc (s : System) (new : Option Nat) : Option Nat × System :=
  match new with
  | none => (none, s)
  | some k =>
    if (s.vm.mms k).isSome then (none, s)
    else
      match mmAllocPgd s.pt with
      | (0, pt) => (none, { s with pt := pt })
      | (pgd, pt) => (some k, ⟨s.vm.setMm k ⟨none, 0, 0, 0, 0⟩, pt, Function.update s.pgd k pgd⟩)

def switchMmTo (s : System) (k : Nat) : System := { s with pt := { s.pt with cr3 := s.pgd k } }

def restoreKernelMm (s : System) : System := { s with pt := { s.pt with cr3 := s.pt.kernelPml4 } }

/-- The break, after the last segment. -/
def setStartBrk (vm : Mm.State) (k segEnd : Nat) : Mm.State :=
  if segEnd = 0 then vm
  else
    match vm.mms k with
    | none => vm
    | some mm => vm.setMm k { mm with startBrk := Mm.pageAlign segEnd, brk := Mm.pageAlign segEnd }

/-! ## ELF -/

structure Elf64Ehdr where
  eIdent : List UInt8
  eType : Nat
  eMachine : Nat
  ePhoff : Nat
  ePhentsize : Nat
  ePhnum : Nat

def readEhdr (buf : List UInt8) : Elf64Ehdr :=
  ⟨buf.take 16, field buf 16 2, field buf 18 2, field buf 32 8, field buf 54 2, field buf 56 2⟩

/-- The magic, `ELFCLASS64`, `ELFDATA2LSB`, `EM_X86_64`, `ET_EXEC` or `ET_DYN`, and program headers of 56 bytes. -/
def Elf64Ehdr.Ok (e : Elf64Ehdr) : Prop :=
  e.eIdent.take 6 = [0x7F, 0x45, 0x4C, 0x46, 2, 1] ∧ e.eMachine = 62 ∧ (e.eType = 2 ∨ e.eType = 3) ∧ e.ePhentsize = 56 ∧
    e.ePhnum ≠ 0

instance (e : Elf64Ehdr) : Decidable e.Ok := by
  unfold Elf64Ehdr.Ok
  infer_instance

/-- PIE at `0x400000`. -/
def Elf64Ehdr.loadBias (e : Elf64Ehdr) : Nat := if e.eType = 3 then 0x400000 else 0

structure Elf64Phdr where
  pType : Nat
  pFlags : Nat
  pOffset : Nat
  pVaddr : Nat
  pFilesz : Nat
  pMemsz : Nat

def readPhdr (buf : List UInt8) : Elf64Phdr :=
  ⟨field buf 0 4, field buf 4 4, field buf 8 8, field buf 16 8, field buf 32 8, field buf 40 8⟩

def readPhdrs (buf : List UInt8) (phnum : Nat) : List Elf64Phdr :=
  (List.range phnum).map fun i => readPhdr (buf.drop (i * 56))

def ptLoad : Nat := 1
def pfX : Nat := 0x1
def pfW : Nat := 0x2
def pfR : Nat := 0x4

def elfSegment (phdr : Elf64Phdr) (loadBias : Nat) : Segment :=
  { vaddr := add64 phdr.pVaddr loadBias
    memsz := phdr.pMemsz
    filesz := phdr.pFilesz
    offset := phdr.pOffset
    prot := vmmProtUser ||| Mm.bitIf (Mm.has phdr.pFlags pfR) vmmProtRead ||| Mm.bitIf (Mm.has phdr.pFlags pfW) vmmProtWrite |||
      Mm.bitIf (Mm.has phdr.pFlags pfX) vmmProtExec
    flags := Mm.bitIf (Mm.has phdr.pFlags pfR) Mm.vmRead ||| Mm.bitIf (Mm.has phdr.pFlags pfW) Mm.vmWrite |||
      Mm.bitIf (Mm.has phdr.pFlags pfX) Mm.vmExec }

def elfLoadSegment (file : List UInt8) (s : System) (k : Nat) (node : Option Nat) (phdr : Elf64Phdr) (loadBias : Nat) :
    Int × System :=
  if phdr.pMemsz = 0 then (0, s) else mapSegment file s k node (elfSegment phdr loadBias)

/-- The loop over the program headers, the `i`-th one next. -/
def loadSegments (file : List UInt8) (k loadBias : Nat) (nodes : Nat → Option Nat) :
    Nat → List Elf64Phdr → System → Int × System
  | _, [], s => (0, s)
  | i, phdr :: phdrs, s =>
    if phdr.pType ≠ ptLoad then loadSegments file k loadBias nodes (i + 1) phdrs s
    else
      match elfLoadSegment file s k (nodes i) phdr loadBias with
      | (r, s) => if r < 0 then (r, s) else loadSegments file k loadBias nodes (i + 1) phdrs s

/-- The end of the highest segment. -/
def elfEnd (phdrs : List Elf64Phdr) (loadBias : Nat) : Nat :=
  (phdrs.filter (·.pType = ptLoad)).foldl (fun highest p => max highest (add64 (add64 p.pVaddr p.pMemsz) loadBias)) 0

/-- The header, when it is one `do_execve` loads, and the program headers. -/
def elfHeaders (file : List UInt8) : Option (Elf64Ehdr × List Elf64Phdr) :=
  let ehdr := vfsRead file 64 0
  if ehdr.length ≠ 64 then none
  else
    let e := readEhdr ehdr
    if ¬e.Ok then none
    else
      let phdrs := vfsRead file (e.ePhnum * 56) e.ePhoff
      if phdrs.length ≠ e.ePhnum * 56 then none else some (e, readPhdrs phdrs e.ePhnum)

/-- The ELF path, up to `build_user_stack`; from `kill` on the process is gone. -/
def elfExec (file : List UInt8) (s : System) (a : Answers) : Int × System :=
  if a.bufs = false then (-enomem, s)
  else
    match elfHeaders file with
    | none => (-enoexec, s)
    | some (e, phdrs) =>
      match mmAlloc s a.mm with
      | (none, s) => (-enomem, s)
      | (some k, s) =>
        match loadSegments file k e.loadBias a.nodes 0 phdrs (switchMmTo s k) with
        | (r, s) =>
          if r < 0 then (r, restoreKernelMm s) else (0, { s with vm := setStartBrk s.vm k (elfEnd phdrs e.loadBias) })

/-! ## Mach-O -/

def mhMagic64 : Nat := 0xFEEDFACF
def mhCigam64 : Nat := 0xCFFAEDFE
def fatMagic : Nat := 0xCAFEBABE
def fatCigam : Nat := 0xBEBAFECA
def cpuTypeX86 : Nat := 0x01000007
def lcSegment64 : Nat := 0x19
def lcUnixthread : Nat := 0x5
def lcMain : Nat := 0x80000028

def machoProbeFile (file : List UInt8) : Prop :=
  let magic := vfsRead file 4 0
  magic.length = 4 ∧ field magic 0 4 ∈ [mhMagic64, mhCigam64, fatMagic, fatCigam]

instance (file : List UInt8) : Decidable (machoProbeFile file) := by
  unfold machoProbeFile
  infer_instance

/-- A field stored with the highest byte first. -/
def field32be (buf : List UInt8) (off : Nat) : Nat := field ((buf.drop off).take 4).reverse 0 4

/-- The loop of `fat_find_x86_64`, at `pos`: where the x86_64 slice starts. -/
def fatArchs (file : List UInt8) : Nat → Nat → Option Nat
  | 0, _ => none
  | n + 1, pos =>
    let fa := vfsRead file 20 pos
    if fa.length ≠ 20 then none
    else if field32be fa 0 = cpuTypeX86 then some (field32be fa 8)
    else fatArchs file n (pos + 20)

def fatFind (file : List UInt8) : Option Nat :=
  let fh := vfsRead file 8 0
  if fh.length ≠ 8 then none
  else
    let narch := field32be fh 4
    if narch = 0 ∨ 32 < narch then none else fatArchs file narch 8

structure SegmentCommand64 where
  segname : List UInt8
  vmaddr : Nat
  vmsize : Nat
  fileoff : Nat
  filesize : Nat
  initprot : Nat

def readSegment64 (lc : List UInt8) : SegmentCommand64 :=
  ⟨(lc.drop 8).take 16, field lc 24 8, field lc 32 8, field lc 40 8, field lc 48 8, field lc 60 4⟩

/-- `strncmp` with `"__PAGEZERO"`. -/
def SegmentCommand64.PageZero (seg : SegmentCommand64) : Prop :=
  seg.segname.take 11 = [0x5F, 0x5F, 0x50, 0x41, 0x47, 0x45, 0x5A, 0x45, 0x52, 0x4F, 0]

instance (seg : SegmentCommand64) : Decidable seg.PageZero := by
  unfold SegmentCommand64.PageZero
  infer_instance

/-- `VM_PROT_READ`, `_WRITE` and `_EXECUTE` are 1, 2 and 4; the pages are mapped readable and writable in any case. -/
def machoSegment (seg : SegmentCommand64) (loadBias fileBase : Nat) : Segment :=
  { vaddr := add64 seg.vmaddr loadBias
    memsz := seg.vmsize
    filesz := seg.filesize
    offset := add64 fileBase seg.fileoff
    prot := vmmProtUser ||| Mm.bitIf (Mm.has seg.initprot 4) vmmProtExec ||| vmmProtRead ||| vmmProtWrite
    flags := Mm.bitIf (Mm.has seg.initprot 1) Mm.vmRead ||| Mm.bitIf (Mm.has seg.initprot 2) Mm.vmWrite |||
      Mm.bitIf (Mm.has seg.initprot 4) Mm.vmExec }

def machoLoadSegment64 (file : List UInt8) (s : System) (k : Nat) (node : Option Nat) (seg : SegmentCommand64)
    (loadBias fileBase : Nat) : Int × System :=
  if seg.vmsize = 0 ∨ seg.PageZero then (0, s) else mapSegment file s k node (machoSegment seg loadBias fileBase)

structure MachoInfo where
  entry : Nat
  haveEntry : Bool
  segEndMax : Nat

/-- The load commands, at most `n` more; `lcp` is the rest of the buffer. -/
def machoCommands (file : List UInt8) (k loadBias fileBase : Nat) (nodes : Nat → Option Nat) :
    Nat → List UInt8 → MachoInfo → System → Int × MachoInfo × System
  | 0, _, info, s => (0, info, s)
  | n + 1, lcp, info, s =>
    let cmd := field lcp 0 4
    let cmdsize := field lcp 4 4
    if lcp.length < 8 ∨ cmdsize = 0 ∨ lcp.length < cmdsize then (0, info, s)
    else if cmd = lcSegment64 ∧ 72 ≤ cmdsize then
      let seg := readSegment64 lcp
      match machoLoadSegment64 file s k (nodes n) seg loadBias fileBase with
      | (r, s) =>
        if r < 0 then (r, info, s)
        else
          machoCommands file k loadBias fileBase nodes n (lcp.drop cmdsize)
            { info with segEndMax := max info.segEndMax (add64 (add64 seg.vmaddr seg.vmsize) loadBias) } s
    else if cmd = lcMain ∧ 24 ≤ cmdsize then
      machoCommands file k loadBias fileBase nodes n (lcp.drop cmdsize)
        { info with entry := add64 loadBias (field lcp 8 8), haveEntry := true } s
    else if cmd = lcUnixthread ∧ 184 ≤ cmdsize ∧ field lcp 8 4 = 4 then
      machoCommands file k loadBias fileBase nodes n (lcp.drop cmdsize)
        { info with entry := add64 (field lcp 144 8) loadBias, haveEntry := true } s
    else machoCommands file k loadBias fileBase nodes n (lcp.drop cmdsize) info s

/-- What `macho_load` reads before it loads: the slide, the count of load commands and their bytes. -/
def machoHeader (file : List UInt8) (fileBase : Nat) : Option (Nat × Nat × List UInt8) :=
  let mh := vfsRead file 32 fileBase
  if mh.length ≠ 32 then none
  else
    let ncmds := field mh 16 4
    let sizeofcmds := field mh 20 4
    if field mh 0 4 ≠ mhMagic64 ∨ field mh 4 4 ≠ cpuTypeX86 ∨ field mh 12 4 ≠ 2 ∨ ncmds = 0 ∨ 512 < ncmds then none
    else
      let lcbuf := vfsRead file sizeofcmds (fileBase + 32)
      if lcbuf.length ≠ sizeofcmds then none
      else some (if Mm.has (field mh 24 4) 0x200000 then 0x100000000 else 0, ncmds, lcbuf)

/-- `macho_load`: the end of the highest segment on success. -/
def machoLoad (file : List UInt8) (fileBase : Nat) (s : System) (k : Nat) (a : Answers) : Int × Nat × System :=
  match machoHeader file fileBase with
  | none => (-enoexec, 0, s)
  | some (loadBias, ncmds, lcbuf) =>
    if a.bufs = false then (-enomem, 0, s)
    else
      match machoCommands file k loadBias fileBase a.nodes ncmds lcbuf ⟨0, false, 0⟩ s with
      | (r, info, s) =>
        if r < 0 then (r, 0, s)
        else if info.haveEntry = false ∨ info.segEndMax = 0 then (-enoexec, 0, s)
        else (0, info.segEndMax, s)

/-- Where `macho_load_file` finds the Mach-O header. -/
def machoBase (file : List UInt8) : Option Nat :=
  let magic := field (vfsRead file 4 0) 0 4
  if magic = fatMagic ∨ magic = fatCigam then fatFind file
  else if magic = mhMagic64 ∨ magic = mhCigam64 then some 0
  else none

/-- `macho_load_file`. -/
def machoLoadFile (file : List UInt8) (s : System) (k : Nat) (a : Answers) : Int × Nat × System :=
  match machoBase file with
  | none => (-enoexec, 0, s)
  | some fileBase => machoLoad file fileBase s k a

/-- The Mach-O path, up to `build_user_stack`. -/
def machoExec (file : List UInt8) (s : System) (a : Answers) : Int × System :=
  match mmAlloc s a.mm with
  | (none, s) => (-enomem, s)
  | (some k, s) =>
    match machoLoadFile file (switchMmTo s k) k a with
    | (r, segEnd, s) => if r < 0 then (r, restoreKernelMm s) else (0, { s with vm := setStartBrk s.vm k segEnd })

/-! ## `do_execve` -/

def doExecve (file : List UInt8) (s : System) (a : Answers) : Int × System :=
  if machoProbeFile file then machoExec file s a else elfExec file s a

end Exec
end Pico
