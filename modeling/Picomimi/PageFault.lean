import Picomimi.AddrSpace
/-!
# PageFault — `do_page_fault`, after `sys_mmap`, `sys_mprotect` and `mm_copy`

Protection is kept in an area's `flags`, in its `vm_flags` and in the entries.  `sys_mmap` writes all three, `sys_mprotect`
the entries and `flags`, and the fault handler reads `vm_flags` alone; it never sets `PTE_NX`.
-/
namespace Pico
namespace AddrSpace

open Lib Paging

/-- `k` runs: CR3 holds its root. -/
def onCpu (s : System) (k : Nat) : State := { s.pt with cr3 := s.pgd k }

/-! ## `sys_mmap` -/

/-- The flags of `mmap_anon_pages` and of `sys_mprotect`. -/
def protFlags (prot : Nat) : Nat :=
  ptePresent ||| pteUser ||| Mm.bitIf (Mm.has prot Mm.protWrite) pteWrite ||| Mm.bitIf (Mm.has prot Mm.protExec = false) pteNx

structure MappedFile where
  physBase : Nat         -- what FBIO_GET_PHYSADDR answers; 0 for a file without it
  words : Nat → Nat      -- the contents, with 0 after the end

/-- The loop over new pages: each is filled, then mapped. -/
def mmapPages (flags : Nat) (words : Nat → Nat) (vaddr : Nat) : Nat → Nat → State → Bool × State
  | 0, _, s => (true, s)
  | n + 1, off, s =>
    match pmmAllocPage s with
    | (0, s) => (false, s)
    | (phys, s) =>
      mmapPages flags words vaddr n (off + pageSize)
        (vmmMapPage (fillPage s phys fun i => words (off + i)) (add64 vaddr off) phys flags)

/-- The loop over a device's memory. -/
def mmapDevice (physBase vaddr : Nat) : Nat → Nat → State → State
  | 0, _, s => s
  | n + 1, off, s =>
    mmapDevice physBase vaddr n (off + pageSize)
      (vmmMapPage s (add64 vaddr off) (add64 physBase off) (ptePresent ||| pteUser ||| pteWrite ||| pteNx))

def mmapFill (s : State) (vaddr length prot flags offset : Nat) (file : Option MappedFile) : Bool × State :=
  if Mm.has flags Mm.mapAnonymous then mmapPages (protFlags prot) (fun _ => 0) vaddr (length / pageSize) 0 s
  else
    match file with
    | none => (false, s)
    | some f =>
      if f.physBase ≠ 0 then (true, mmapDevice (add64 f.physBase offset) vaddr (length / pageSize) 0 s)
      else mmapPages (protFlags prot) (fun x => f.words (offset + x)) vaddr (length / pageSize) 0 s

/-- Where `sys_mmap` of a process maps, when it gets so far. -/
def mmapTarget (s : System) (k addrHint length flags offset : Nat) : Option Nat :=
  if length = 0 ∨ offset % pageSize ≠ 0 then none
  else (s.vm.mms k).bind fun mm => (Mm.mmapAddr s.vm mm addrHint (Mm.pageAlign length) flags).toOption

/-- `sys_mmap` of a process: the pages, then the area. -/
def sysMmap (s : System) (k addrHint length prot flags offset : Nat) (file : Option MappedFile) (node : Option Nat) :
    Except Int Nat × System :=
  let filled := match mmapTarget s k addrHint length flags offset with
    | none => (true, onCpu s k)
    | some vaddr => mmapFill (onCpu s k) vaddr (Mm.pageAlign length) prot flags offset file
  let r := Mm.sysMmap s.vm k addrHint length prot flags offset file.isSome filled.1 node
  (r.1, ⟨r.2, filled.2, s.pgd⟩)

/-! ## `sys_mprotect` -/

def mprotectPage (flags : Nat) (s : State) (pg : Nat) : State :=
  let phys := vmmUserVirtToPhys s pg
  if phys ≠ 0 then vmmMapPage s pg phys flags else s

/-- `VM_READ | VM_WRITE | VM_EXEC`. -/
def vmProt : Nat := Mm.vmRead ||| Mm.vmWrite ||| Mm.vmExec

def protBits (prot : Nat) : Nat :=
  Mm.bitIf (Mm.has prot Mm.protRead) Mm.vmRead ||| Mm.bitIf (Mm.has prot Mm.protWrite) Mm.vmWrite |||
    Mm.bitIf (Mm.has prot Mm.protExec) Mm.vmExec

/-- An area that meets the range, even in part, changes its `flags`; its `vm_flags` stay. -/
def mprotectArea (start endAddr prot : Nat) (vm : Mm.State) (i : Nat) : Mm.State :=
  let v := vm.vmas i
  if v.endAddr ≤ start ∨ endAddr ≤ v.start then vm
  else vm.setVma i { v with flags := v.flags &&& (0xFFFFFFFF ^^^ vmProt) ||| protBits prot }

def sysMprotect (s : System) (k addr len prot : Nat) : Int × System :=
  if addr % pageSize ≠ 0 then (-Mm.einval, s)
  else if len = 0 then (0, s)
  else
    let endAddr := add64 addr (Mm.pageAlign len)
    match s.vm.mms k with
    | none => (0, s)
    | some mm =>
      (0,
        ⟨(s.vm.nodes mm).foldl (mprotectArea addr endAddr prot) s.vm,
          (pagesOf addr endAddr).foldl (mprotectPage (protFlags prot)) (onCpu s k), s.pgd⟩)

/-! ## `do_page_fault` -/

def pteFlagsForVma (v : Mm.Vma) : Nat := ptePresent ||| pteUser ||| Mm.bitIf (Mm.has v.vmFlags Mm.vmWrite) pteWrite

/-- `alloc_zero_page`. -/
def allocZeroPage (s : State) : Nat × State :=
  match pmmAllocPage s with
  | (0, s) => (0, s)
  | (phys, s) => (phys, fillPage s phys fun _ => 0)

/-- A zeroed page at `page`: what demand paging and stack growth end in. -/
def mapZeroPage (s : State) (page flags : Nat) : Int × State :=
  match allocZeroPage s with
  | (0, s) => (-1, s)
  | (phys, s) => (0, vmmMapPage s page phys flags)

/-- `none` when the kernel itself faults: `vmm_get_phys` leaves `PTE_NX` in the address that is copied from. -/
def handleCow (s : System) (k i faultAddr : Nat) : Option (Int × System) :=
  let page := alignDown faultAddr pageSize
  let pt := onCpu s k
  let oldPhys := vmmGetPhysIn pt.mem pt.cr3 page
  if oldPhys = 0 then some (-1, s)
  else
    match allocZeroPage pt with
    | (0, pt) => some (-1, { s with pt := pt })
    | (newPhys, pt) =>
      if NoExec oldPhys then none
      else
        let flags := pteFlagsForVma (s.vm.vmas i)
        some (0, ⟨(Mm.handleCow s.vm i true).2, vmmMapPage (copyPage pt newPhys oldPhys) page newPhys flags, s.pgd⟩)

def handleAnonFault (s : System) (k i faultAddr : Nat) : Int × System :=
  let r := mapZeroPage (onCpu s k) (alignDown faultAddr pageSize) (pteFlagsForVma (s.vm.vmas i))
  (r.1, { s with pt := r.2 })

/-- The area grows before a page is looked for. -/
def handleStackGrowth (s : System) (k : Nat) (mm : Mm.MmStruct) (faultAddr : Nat) : Int × System :=
  match Mm.stackVma s.vm mm faultAddr with
  | none => (-1, s)
  | some i =>
    let newStart := alignDown faultAddr pageSize
    let vm := s.vm.setVma i { s.vm.vmas i with start := newStart }
    let r := mapZeroPage (onCpu s k) newStart (pteFlagsForVma (vm.vmas i))
    (r.1, ⟨vm, r.2, s.pgd⟩)

def doPageFault (s : System) (k faultAddr : Nat) (present write user : Bool) : Option (Int × System) :=
  if user = false ∨ faultAddr < 0x1000 then some (-1, s)
  else
    match s.vm.mms k with
    | none => some (-1, s)
    | some mm =>
      match Mm.findVma s.vm mm faultAddr with
      | none => some (handleStackGrowth s k mm faultAddr)
      | some i =>
        let v := s.vm.vmas i
        if faultAddr < v.start ∨ v.endAddr ≤ faultAddr then some (handleStackGrowth s k mm faultAddr)
        else if present ∧ write then
          if Mm.has v.vmFlags Mm.vmWrite then handleCow s k i faultAddr else some (-1, s)
        else if present then some (-1, s)
        else if Mm.has v.vmFlags Mm.vmRead = false ∧ Mm.has v.vmFlags Mm.vmExec = false then some (-1, s)
        else some (handleAnonFault s k i faultAddr)

/-! ## The machine -/

inductive Op where
  | mmap (k addrHint length prot flags offset : Nat) (file : Option MappedFile) (node : Option Nat)
  | mprotect (k addr len prot : Nat)
  | fork (k : Nat) (new : Option Nat) (nodes : Nat → Option Nat)
  | pageFault (k faultAddr : Nat) (present write user : Bool)

/-- One step of a process; the arguments are `u64`s. -/
def step (s : System) : Op → Option System
  | .mmap k addrHint length prot flags offset file node =>
    if (s.vm.mms k).isSome ∧ addrHint < word64 ∧ length < word64 ∧ offset < word64 then
      some (sysMmap s k addrHint length prot flags offset file node).2
    else none
  | .mprotect k addr len prot => if addr < word64 ∧ len < word64 then some (sysMprotect s k addr len prot).2 else none
  | .fork k new nodes => some (mmCopy s k new nodes).2
  | .pageFault k faultAddr present write user =>
    if faultAddr < word64 then (doPageFault s k faultAddr present write user).map Prod.snd else none

/-- The roots in use. -/
def Root (s : System) (r : Nat) : Prop := ∃ k, (s.vm.mms k).isSome = true ∧ s.pgd k = r

/-- From any address spaces whose tables are their own. -/
def machine : Machine System Op where
  init s := Spaces s.pt (Root s)
  step := step

/-- **The call stays in the user half.** -/
def UserOnly (s : System) : Op → Prop
  | .mmap k addrHint length _ flags offset _ _ =>
    ∀ vaddr ∈ mmapTarget s k addrHint length flags offset, vaddr + Mm.pageAlign length ≤ userTop
  | .mprotect _ addr len _ => add64 addr (Mm.pageAlign len) ≤ userTop
  | .fork k _ _ => UserAreas s k
  | .pageFault _ faultAddr _ _ _ => faultAddr < userTop

/-! ## The tables -/

variable {s s' : State} {r v n phys flags : Nat}

theorem copyMapping_works {o pg : Nat} (h : Space s r) (hpg : pg < userTop) : Works s (copyMapping o r s pg) r := by
  unfold copyMapping
  dsimp only
  split
  · exact h.refl
  rcases ha : pmmAllocPage s with ⟨_ | m, s₁⟩
  · rcases pmmAllocPage_cases h ha with ⟨-, hw, -⟩ | hn
    · exact hw
    · exact h.works_taken hn
  · have hn := (pmmAllocPage_cases h ha).resolve_left fun hc => Nat.succ_ne_zero m hc.1
    have hw := (h.filled (copyPage_filled hn (h.dvd_of_free hn.free) (frameOf (vmmPteForVirtIn s.mem o pg))).1).1
    exact hw.trans (vmmMapPageInPgd_works (hw.space h) hpg)

theorem add64_user {vaddr off n : Nat} (h : vaddr + off + (n + 1) * pageSize ≤ userTop) :
    add64 vaddr off < userTop ∧ vaddr + (off + pageSize) + n * pageSize ≤ userTop := by
  have hlt : vaddr + off < userTop := by
    unfold pageSize at h
    omega
  rw [add64_of_lt (Nat.lt_trans hlt (by decide))]
  rw [Nat.succ_mul] at h
  exact ⟨hlt, by omega⟩

theorem mmapPages_works {words : Nat → Nat} {vaddr n off : Nat} (h : Space s r) (hc : readCr3 s = r)
    (hle : vaddr + off + n * pageSize ≤ userTop) : Works s (mmapPages flags words vaddr n off s).2 r := by
  induction n generalizing off s with
  | zero => exact h.refl
  | succ n ih =>
    obtain ⟨hlt, hle'⟩ := add64_user hle
    unfold mmapPages
    rcases ha : pmmAllocPage s with ⟨_ | m, s₁⟩
    · rcases pmmAllocPage_cases h ha with ⟨-, hw, -⟩ | hn
      · exact hw
      · exact h.works_taken hn
    · have hn := (pmmAllocPage_cases h ha).resolve_left fun hc => Nat.succ_ne_zero m hc.1
      have hw := (h.filled (fillPage_filled hn (h.dvd_of_free hn.free) fun i => words (off + i)).1).1
      have hw' := hw.trans (vmmMapPage_works (m + 1) flags (hw.space h) (hw.readCr3 hc) hlt)
      exact hw'.trans (ih (hw'.space h) (hw'.readCr3 hc) hle')

theorem mmapDevice_works {physBase vaddr n off : Nat} (h : Space s r) (hc : readCr3 s = r)
    (hle : vaddr + off + n * pageSize ≤ userTop) : Works s (mmapDevice physBase vaddr n off s) r := by
  induction n generalizing off s with
  | zero => exact h.refl
  | succ n ih =>
    obtain ⟨hlt, hle'⟩ := add64_user hle
    have hw := vmmMapPage_works (add64 physBase off) (ptePresent ||| pteUser ||| pteWrite ||| pteNx) h hc hlt
    exact hw.trans (ih (hw.space h) (hw.readCr3 hc) hle')

theorem mmapFill_works {vaddr length prot offset : Nat} {file : Option MappedFile} (h : Space s r) (hc : readCr3 s = r)
    (hle : vaddr + length ≤ userTop) : Works s (mmapFill s vaddr length prot flags offset file).2 r := by
  have hle' : vaddr + 0 + length / pageSize * pageSize ≤ userTop :=
    Nat.le_trans (Nat.add_le_add_left (Nat.div_mul_le_self _ _) _) hle
  unfold mmapFill
  split
  · exact mmapPages_works h hc hle'
  · cases file with
    | none => exact h.refl
    | some f =>
      dsimp only
      split
      · exact mmapDevice_works h hc hle'
      · exact mmapPages_works h hc hle'

theorem mprotectPage_works (h : Space s r) (hc : readCr3 s = r) (hv : v < userTop) : Works s (mprotectPage flags s v) r := by
  unfold mprotectPage
  dsimp only
  split
  · exact vmmMapPage_works _ _ h hc hv
  · exact h.refl

/-- What `alloc_zero_page` answers. -/
theorem allocZeroPage_cases (h : Space s r) (ha : allocZeroPage s = (n, s')) :
    (n = 0 ∧ Works s s' r) ∨ Filled s s' n := by
  unfold allocZeroPage at ha
  rcases hp : pmmAllocPage s with ⟨_ | m, s₁⟩
  · rw [hp] at ha
    cases ha
    rcases pmmAllocPage_cases h hp with ⟨-, hw, -⟩ | hn
    · exact .inl ⟨rfl, hw⟩
    · exact .inl ⟨rfl, h.works_taken hn⟩
  · rw [hp] at ha
    cases ha
    have hn := (pmmAllocPage_cases h hp).resolve_left fun hc => Nat.succ_ne_zero m hc.1
    exact .inr (fillPage_filled hn (h.dvd_of_free hn.free) fun _ => 0).1

theorem mapZeroPage_works (flags : Nat) (h : Space s r) (hc : readCr3 s = r) (hv : v < userTop) :
    Works s (mapZeroPage s v flags).2 r := by
  unfold mapZeroPage
  rcases ha : allocZeroPage s with ⟨_ | m, s₁⟩
  · rcases allocZeroPage_cases h ha with ⟨-, hw⟩ | hn
    · exact hw
    · exact (h.filled hn).1
  · have hn := (allocZeroPage_cases h ha).resolve_left fun hc => Nat.succ_ne_zero m hc.1
    have hw := (h.filled hn).1
    exact hw.trans (vmmMapPage_works _ _ (hw.space h) (hw.readCr3 hc) hv)

/-! ## One step -/

section Step

variable {s s' : System} {k faultAddr : Nat} {R : Nat → Prop}

theorem onCpu_spec (h : Spaces s.pt R) (hr : R (s.pgd k)) :
    Spaces (onCpu s k) R ∧ Space (onCpu s k) (s.pgd k) ∧ readCr3 (onCpu s k) = s.pgd k := by
  have hs : Spaces (onCpu s k) R := h.data (fun _ _ => rfl) (fun _ ht => ht) rfl
  exact ⟨hs, hs.space _ hr, tableOf_of_dvd (h.space _ hr).tree.isRoot⟩

/-- **A call of `k` that works on its own tree only.** -/
structure OnTree (s s' : System) (k : Nat) : Prop where
  works : Works (onCpu s k) s'.pt (s.pgd k)
  pgd : s'.pgd = s.pgd
  mms : ∀ j, (s'.vm.mms j).isSome = (s.vm.mms j).isSome

theorem OnTree.root (h : OnTree s s' k) {r : Nat} : Root s' r ↔ Root s r := by
  unfold Root
  simp only [h.pgd, h.mms]

theorem OnTree.spaces (h : OnTree s s' k) (hs : Spaces s.pt (Root s)) (hk : (s.vm.mms k).isSome = true) :
    Spaces s'.pt (Root s') := by
  obtain ⟨h1, -, -⟩ := onCpu_spec hs ⟨k, hk, rfl⟩
  exact (h1.works ⟨k, hk, rfl⟩ h.works).mono fun r hr => h.root.1 hr

theorem insertVma_isSome (vm : Mm.State) (k i j : Nat) : ((Mm.insertVma vm k i).mms j).isSome = (vm.mms j).isSome := by
  unfold Mm.insertVma
  cases hk : vm.mms k with
  | none => rfl
  | some mm =>
    dsimp only
    rw [Function.update_apply]
    split
    · rename_i hj
      rw [hj, hk]
      rfl
    · rfl

theorem addTotalVm_isSome (vm : Mm.State) (k n j : Nat) : ((Mm.addTotalVm vm k n).mms j).isSome = (vm.mms j).isSome := by
  unfold Mm.addTotalVm
  cases hk : vm.mms k with
  | none => rfl
  | some mm =>
    show (Function.update vm.mms k _ j).isSome = _
    rw [Function.update_apply]
    split
    · rename_i hj
      rw [hj, hk]
      rfl
    · rfl

theorem vmaAlloc_isSome {vm vm' : Mm.State} {node o : Option Nat} (h : Mm.vmaAlloc vm node = (o, vm')) : vm'.mms = vm.mms := by
  unfold Mm.vmaAlloc at h
  split at h
  · cases h
    rfl
  · split at h <;> cases h <;> rfl

theorem sysMmap_isSome (vm : Mm.State) (k addrHint length prot flags offset : Nat) (fdOk pages : Bool) (node : Option Nat)
    (j : Nat) : ((Mm.sysMmap vm k addrHint length prot flags offset fdOk pages node).2.mms j).isSome = (vm.mms j).isSome := by
  unfold Mm.sysMmap
  split
  · rfl
  split
  · rfl
  dsimp only
  split
  · rfl
  split
  · rfl
  split
  · rfl
  split
  · rfl
  rcases ha : Mm.vmaAlloc vm node with ⟨_ | i, vm'⟩
  · exact congrArg Option.isSome (congrFun (vmaAlloc_isSome ha) j)
  · exact (addTotalVm_isSome _ _ _ _).trans ((insertVma_isSome _ _ _ _).trans
      (congrArg Option.isSome (congrFun (vmaAlloc_isSome ha) j)))

theorem sysMmap_onTree {addrHint length prot flags offset : Nat} {file : Option MappedFile} {node : Option Nat}
    (h : Spaces s.pt (Root s)) (hk : (s.vm.mms k).isSome = true)
    (hu : ∀ vaddr ∈ mmapTarget s k addrHint length flags offset, vaddr + Mm.pageAlign length ≤ userTop) :
    OnTree s (sysMmap s k addrHint length prot flags offset file node).2 k := by
  obtain ⟨-, h2, h3⟩ := onCpu_spec h ⟨k, hk, rfl⟩
  refine ⟨?_, rfl, sysMmap_isSome _ _ _ _ _ _ _ _ _ _⟩
  unfold sysMmap
  dsimp only
  cases ht : mmapTarget s k addrHint length flags offset with
  | none => exact h2.refl
  | some vaddr => exact mmapFill_works h2 h3 (hu vaddr ht)

theorem foldl_mprotectArea_mms (start endAddr prot : Nat) : ∀ (l : List Nat) (vm : Mm.State),
    (l.foldl (mprotectArea start endAddr prot) vm).mms = vm.mms
  | [], _ => rfl
  | i :: l, vm => by
    rw [List.foldl_cons, foldl_mprotectArea_mms start endAddr prot l]
    unfold mprotectArea
    dsimp only
    split <;> rfl

theorem sysMprotect_spaces {addr len prot : Nat} (h : Spaces s.pt (Root s)) (hk : (s.vm.mms k).isSome = true)
    (hu : add64 addr (Mm.pageAlign len) ≤ userTop) :
    Spaces (sysMprotect s k addr len prot).2.pt (Root (sysMprotect s k addr len prot).2) := by
  obtain ⟨-, h2, h3⟩ := onCpu_spec h ⟨k, hk, rfl⟩
  unfold sysMprotect
  split
  · exact h
  split
  · exact h
  dsimp only
  split
  · exact h
  refine OnTree.spaces (s := s) (k := k) ⟨?_, rfl, fun j => ?_⟩ h hk
  · refine foldl_works h2 fun pg hpg t ht hc => ?_
    have hpg' : pg < userTop := Nat.lt_of_lt_of_le (mem_pagesOf hpg).2 hu
    exact mprotectPage_works ht ((congrArg tableOf hc).trans h3) hpg'
  · rw [foldl_mprotectArea_mms]

theorem mmFreeVmas_mms : ∀ (fuel : Nat) (vm : Mm.State) (h : Option Nat), (Mm.mmFreeVmas fuel vm h).mms = vm.mms
  | 0, _, _ => rfl
  | _ + 1, _, none => rfl
  | fuel + 1, vm, some i => mmFreeVmas_mms fuel (Mm.vmaFree vm i) _

theorem copyVmas_mms {nodes : Nat → Option Nat} : ∀ {fuel : Nat} {vm vm' : Mm.State} {old head tail : Option Nat}
    {o : Option (Option Nat)}, Mm.copyVmas nodes fuel vm old head tail = (o, vm') → vm'.mms = vm.mms
  | 0, _, _, _, _, _, _, h => by
    cases h
    rfl
  | _ + 1, _, _, none, _, _, _, h => by
    cases h
    rfl
  | fuel + 1, vm, vm', some i, head, tail, o, h => by
    simp only [Mm.copyVmas] at h
    rcases ha : Mm.vmaAlloc vm (nodes i) with ⟨_ | c, vm₁⟩
    · rw [ha] at h
      cases h
      rw [mmFreeVmas_mms, vmaAlloc_isSome ha]
    · rw [ha] at h
      rw [copyVmas_mms h, ← vmaAlloc_isSome ha]
      cases tail <;> rfl

/-- A page given back that was free before it was taken. -/
theorem pmmFreePage_spec {pt pt' : State} {n : Nat} (h : Filled pt pt' n) :
    (pmmFreePage pt' n).mem = pt'.mem ∧ (pmmFreePage pt' n).bitmapBase = pt.bitmapBase ∧
      ∀ t, (pmmFreePage pt' n).Free t → pt.Free t := by
  have hback : ∀ t, pt'.Free t → pt.Free t := fun t ht => (h.still t ht).1
  unfold pmmFreePage
  split
  · exact ⟨rfl, h.base, hback⟩
  dsimp only
  split
  swap
  · exact ⟨rfl, h.base, hback⟩
  refine ⟨rfl, h.base, fun t ht => ?_⟩
  obtain ⟨i, hi, hb, rfl⟩ := ht
  obtain ⟨j, -, -, hj⟩ := id h.free
  by_cases hij : i = (n - pt'.bitmapBase) / pageSize
  · have hin : pt'.bitmapBase + i * pageSize = n := by
      rw [hij, hj, h.base, Nat.add_sub_cancel_left, Nat.mul_div_cancel _ (by decide)]
    exact hin ▸ h.free
  · refine hback _ ⟨i, hi, ?_, rfl⟩
    rw [← hb]
    exact (Function.update_of_ne hij _ _).symm

/-- A fork that fails gives back the root it took. -/
theorem mmCopy_none {new : Option Nat} {nodes : Nat → Option Nat} (h : Spaces s.pt (Root s))
    (hcall : mmCopy s k new nodes = (none, s')) : Spaces s'.pt (Root s') := by
  unfold mmCopy at hcall
  split at hcall
  swap
  · cases hcall
    exact h
  split at hcall
  · cases hcall
    exact h
  rename_i old j hk hj
  rcases ha : mmAllocPgd s.pt with ⟨_ | m, pt⟩
  · rw [ha] at hcall
    cases hcall
    rcases mmAllocPgd_spec h.base ha with ⟨-, rfl | hn⟩ | ⟨hn, -⟩
    · exact h
    · exact h.data (fun a _ => congrFun hn.mem a) (fun t ht => (hn.still t ht).1) hn.base
    · exact h.data (fun a => hn.mem_of_not_free) (fun t ht => (hn.still t ht).1) hn.base
  obtain ⟨hn, -⟩ := (mmAllocPgd_spec h.base ha).resolve_left fun hc => Nat.succ_ne_zero m hc.1
  rw [ha] at hcall
  rcases hcopy : Mm.copyVmas nodes s.vm.bound s.vm old.mmap none none with ⟨_ | head, vm⟩
  · rw [hcopy] at hcall
    cases hcall
    obtain ⟨h1, h2, h3⟩ := pmmFreePage_spec hn
    have hroot : Root ⟨vm, pmmFreePage pt (m + 1), s.pgd⟩ = Root s := by
      funext r
      unfold Root
      dsimp only
      rw [copyVmas_mms hcopy]
    rw [hroot]
    refine h.data (fun a ha => ?_) h3 h2
    dsimp only
    rw [h1]
    exact hn.mem_of_not_free ha
  · rw [hcopy] at hcall
    cases hcall

theorem mmCopy_spaces {new : Option Nat} {nodes : Nat → Option Nat} (h : Spaces s.pt (Root s)) (hu : UserAreas s k) :
    Spaces (mmCopy s k new nodes).2.pt (Root (mmCopy s k new nodes).2) := by
  rcases hcall : mmCopy s k new nodes with ⟨_ | j, s'⟩
  · exact mmCopy_none h hcall
  obtain ⟨old, m, pt, head, vm, hk, ha, hcopy, rfl⟩ := mmCopy_some hcall
  obtain ⟨hn, hz⟩ := (mmAllocPgd_spec h.base ha).resolve_left fun hc => Nat.succ_ne_zero m hc.1
  have hnew := h.newRoot hn hz
  have hw : Works pt ((areaPages s old).foldl (copyMapping (s.pgd k) (m + 1)) pt) (m + 1) := by
    refine foldl_works (hnew.space _ (.inr rfl)) fun pg hpg t ht _ => copyMapping_works ht ?_
    obtain ⟨v, hv, hpv⟩ := List.mem_flatMap.1 hpg
    exact Nat.lt_of_lt_of_le (mem_pagesOf hpv).2 (hu old hk v hv)
  refine (hnew.works (.inr rfl) hw).mono fun r hr => ?_
  obtain ⟨i, hi, rfl⟩ := hr
  dsimp only [Mm.State.setMm] at hi ⊢
  by_cases hij : i = j
  · subst hij
    exact .inr (Function.update_self _ _ _)
  · rw [Function.update_of_ne hij, copyVmas_mms hcopy] at hi
    rw [Function.update_of_ne hij]
    exact .inl ⟨i, hi, rfl⟩

end Step

/-! ## What a fault may grant -/

/-- The area with the address permits it. -/
def Allows (s : System) (k addr bit : Nat) : Prop :=
  ∃ mm ∈ s.vm.mms k, ∃ i ∈ Mm.findVma s.vm mm addr,
    ((s.vm.vmas i).start ≤ addr ∧ addr < (s.vm.vmas i).endAddr) ∧ Mm.has (s.vm.vmas i).flags bit = true

/-- **A fault grants no more than the area with the address permits**: an entry that is writable, or not `PTE_NX`, after a
fault that was resolved; and outside the areas and below no stack, nothing is mapped. -/
structure GrantsOk (s s' : System) (k faultAddr : Nat) (r : Int) : Prop where
  write : r = 0 → Present (leaf s'.pt (s'.pgd k) faultAddr) → Writable (leaf s'.pt (s'.pgd k) faultAddr) →
    Allows s' k faultAddr Mm.vmWrite
  exec : r = 0 → Present (leaf s'.pt (s'.pgd k) faultAddr) → ¬NoExec (leaf s'.pt (s'.pgd k) faultAddr) →
    Allows s' k faultAddr Mm.vmExec
  outside : ∀ mm ∈ s.vm.mms k, (∀ v ∈ s.vm.areas mm, ¬(v.start ≤ faultAddr ∧ faultAddr < v.endAddr)) →
    Mm.stackVma s.vm mm faultAddr = none → r ≠ 0 ∧ s'.pt.mem = s.pt.mem

/-- The stack area that grows to the address. -/
def grownArea (vm : Mm.State) (mm : Mm.MmStruct) (faultAddr : Nat) : Option Mm.Vma :=
  (Mm.stackVma vm mm faultAddr).map fun i => { vm.vmas i with start := alignDown faultAddr pageSize }

/-- The area for which a page is mapped, as it is then. -/
def areaFor (vm : Mm.State) (mm : Mm.MmStruct) (faultAddr : Nat) (present write : Bool) : Option Mm.Vma :=
  match Mm.findVma vm mm faultAddr with
  | none => grownArea vm mm faultAddr
  | some i =>
    let v := vm.vmas i
    if faultAddr < v.start ∨ v.endAddr ≤ faultAddr then grownArea vm mm faultAddr
    else if present ∧ write then if Mm.has v.vmFlags Mm.vmWrite then some v else none
    else if present then none
    else if Mm.has v.vmFlags Mm.vmRead = false ∧ Mm.has v.vmFlags Mm.vmExec = false then none
    else some v

/-- A page is found for it, pages for its tables, and, when `handle_cow` is asked (a fault on a page that is there), a page
to copy. -/
structure PageFound (s : System) (mm : Mm.MmStruct) (k faultAddr : Nat) (present : Bool) : Prop where
  page : (allocZeroPage (onCpu s k)).1 ≠ 0
  tables : (obtainPt (allocZeroPage (onCpu s k)).2 (s.pgd k) (alignDown faultAddr pageSize)).1.isSome = true
  source : (∃ v ∈ s.vm.areas mm, v.start ≤ faultAddr ∧ faultAddr < v.endAddr) → present = true →
    vmmGetPhysIn s.pt.mem (s.pgd k) (alignDown faultAddr pageSize) ≠ 0

/-- The area has the address, and what its `vm_flags` let the handler grant its `flags` permit; code may be run in it. -/
structure Permits (v : Mm.Vma) (addr : Nat) : Prop where
  start_le : v.start ≤ addr
  lt_end : addr < v.endAddr
  exec : Mm.has v.flags Mm.vmExec = true
  write : Mm.has v.vmFlags Mm.vmWrite = true → Mm.has v.flags Mm.vmWrite = true

/-- **When a fault grants no more.** -/
def FaultOk (s : System) (k faultAddr : Nat) (present write user : Bool) : Prop :=
  user = true → 0x1000 ≤ faultAddr → ∀ mm ∈ s.vm.mms k, ∀ v ∈ areaFor s.vm mm faultAddr present write,
    PageFound s mm k faultAddr present → Permits v faultAddr

section Fault

variable {s s' : System} {k faultAddr : Nat} {mm : Mm.MmStruct} {pt pt' : State}

theorem alignDown_user (hv : v < userTop) : alignDown v pageSize < userTop := Nat.lt_of_le_of_lt (alignDown_le _ _) hv

theorem alignDown_div (v : Nat) : v / pageSize = alignDown v pageSize / pageSize :=
  (Nat.mul_div_cancel _ (by decide)).symm

theorem alignDown_ne_zero (h : 0x1000 ≤ v) : alignDown v pageSize ≠ 0 := by
  unfold alignDown pageSize
  omega

/-- **The entry of the page after a mapping**: the one stored, or none where a table is missing. -/
theorem leaf_mapped (phys flags : Nat) (h : Space pt r) (hc : readCr3 pt = r) (hv : v < userTop) (h0 : 0x1000 ≤ v) :
    Works pt (vmmMapPage pt (alignDown v pageSize) phys flags) r ∧
      leaf (vmmMapPage pt (alignDown v pageSize) phys flags) r v =
        if (obtainPt pt r (alignDown v pageSize)).1.isSome then pteFor phys flags else 0 := by
  have hp := alignDown_user hv
  rw [vmmMapPage_user hp, hc]
  obtain ⟨hw, hmap⟩ := mapInPgd_spec phys flags h hp (alignDown_ne_zero h0)
  refine ⟨hw, ?_⟩
  split
  · rename_i ho
    rw [if_pos ho] at hmap
    rw [hmap v hv, if_pos (alignDown_div v)]
  · rename_i ho
    rw [if_neg ho] at hmap
    rw [leaf_congr _ _ hp hv (alignDown_div v), hmap.2]

/-- The entry says what the area's `vm_flags` say, and never `PTE_NX`. -/
theorem pteFlagsForVma_spec (a : Mm.Vma) : (Writable (pteFlagsForVma a) ↔ Mm.has a.vmFlags Mm.vmWrite = true) ∧
    ¬NoExec (pteFlagsForVma a) := by
  unfold pteFlagsForVma
  cases Mm.has a.vmFlags Mm.vmWrite <;> decide

/-- What an entry made for the area `a` grants. -/
theorem grants_iff {e : Nat} {a : Mm.Vma} {found : Prop} [Decidable found] (hlt : phys < 0x10000000000000)
    (he : e = if found then pteFor phys (pteFlagsForVma a) else 0)
    (hallow : ∀ bit, Allows s' k faultAddr bit ↔ (a.start ≤ faultAddr ∧ faultAddr < a.endAddr) ∧ Mm.has a.flags bit = true) :
    ((Present e → Writable e → Allows s' k faultAddr Mm.vmWrite) ∧ (Present e → ¬NoExec e → Allows s' k faultAddr Mm.vmExec)) ↔
      (found → Permits a faultAddr) := by
  obtain ⟨hw, hx⟩ := pteFlagsForVma_spec a
  by_cases hf : found
  · rw [if_pos hf] at he
    rw [he, hallow, hallow, writable_pteFor, noExec_pteFor _ hlt, hw, imp_iff_right (present_pteFor _ _),
      imp_iff_right (present_pteFor _ _), imp_iff_right hx, imp_iff_right hf]
    constructor
    · rintro ⟨h1, ⟨h2, h3⟩, h4⟩
      exact ⟨h2, h3, h4, fun h => (h1 h).2⟩
    · rintro ⟨h1, h2, h3, h4⟩
      exact ⟨fun h => ⟨⟨h1, h2⟩, h4 h⟩, ⟨h1, h2⟩, h3⟩
  · rw [if_neg hf] at he
    rw [he]
    exact iff_of_true ⟨fun h => absurd h not_present_zero, fun h => absurd h not_present_zero⟩ fun h => absurd h hf

theorem mapZeroPage_spec {r : Int} {root : Nat} (h : Space pt root) (hc : readCr3 pt = root) (hv : v < userTop)
    (h0 : 0x1000 ≤ v) (hm : mapZeroPage pt (alignDown v pageSize) flags = (r, pt')) :
    Works pt pt' root ∧ ((r = -1 ∧ (allocZeroPage pt).1 = 0) ∨
      (r = 0 ∧ (allocZeroPage pt).1 ≠ 0 ∧ ∃ phys, phys < 0x10000000000000 ∧ leaf pt' root v =
        if (obtainPt (allocZeroPage pt).2 root (alignDown v pageSize)).1.isSome then pteFor phys flags else 0)) := by
  have hworks := mapZeroPage_works flags h hc (alignDown_user hv)
  rw [hm] at hworks
  refine ⟨hworks, ?_⟩
  unfold mapZeroPage at hm
  rcases ha : allocZeroPage pt with ⟨_ | m, pt₁⟩
  · rw [ha] at hm
    cases hm
    exact .inl ⟨rfl, rfl⟩
  · rw [ha] at hm
    cases hm
    have hn := (allocZeroPage_cases h ha).resolve_left fun hc => Nat.succ_ne_zero m hc.1
    have hw := (h.filled hn).1
    exact .inr ⟨rfl, Nat.succ_ne_zero m, m + 1, h.lt_of_free hn.free,
      (leaf_mapped _ _ (hw.space h) (hw.readCr3 hc) hv h0).2⟩

/-- A fault that is not resolved and maps nothing. -/
theorem grantsOk_of_refused {r : Int} (hr : r ≠ 0) (hm : s'.pt.mem = s.pt.mem) : GrantsOk s s' k faultAddr r :=
  ⟨fun h => absurd h hr, fun h => absurd h hr, fun _ _ _ _ => ⟨hr, hm⟩⟩

/-- `GrantsOk` where there is an area, or a stack to grow. -/
theorem grantsOk_iff {r : Int} (hk : s.vm.mms k = some mm) (hin : (∃ v ∈ s.vm.areas mm, v.start ≤ faultAddr ∧ faultAddr < v.endAddr) ∨
    Mm.stackVma s.vm mm faultAddr ≠ none) (hr : r = 0) :
    GrantsOk s s' k faultAddr r ↔
      ((Present (leaf s'.pt (s'.pgd k) faultAddr) → Writable (leaf s'.pt (s'.pgd k) faultAddr) → Allows s' k faultAddr Mm.vmWrite) ∧
        (Present (leaf s'.pt (s'.pgd k) faultAddr) → ¬NoExec (leaf s'.pt (s'.pgd k) faultAddr) →
          Allows s' k faultAddr Mm.vmExec)) := by
  constructor
  · rintro ⟨h1, h2, -⟩
    exact ⟨h1 hr, h2 hr⟩
  · rintro ⟨h1, h2⟩
    refine ⟨fun _ => h1, fun _ => h2, fun mm' hmm hno hst => ?_⟩
    cases hk.symm.trans hmm
    rcases hin with ⟨v, hv, hc⟩ | hne
    · exact absurd hc (hno v hv)
    · exact absurd hst hne

/-- `Allows` when `find_vma` answers `i`. -/
theorem allows_of_find {i bit : Nat} (hk : s.vm.mms k = some mm) (hf : Mm.findVma s.vm mm faultAddr = some i) :
    Allows s k faultAddr bit ↔ ((s.vm.vmas i).start ≤ faultAddr ∧ faultAddr < (s.vm.vmas i).endAddr) ∧
      Mm.has (s.vm.vmas i).flags bit = true := by
  constructor
  · rintro ⟨mm', hmm, j, hj, h⟩
    cases hk.symm.trans hmm
    cases hf.symm.trans hj
    exact h
  · exact fun h => ⟨mm, hk, i, hf, h⟩

/-- `find_vma` looks at the ranges only. -/
theorem findVmaFrom_congr {vm vm' : Mm.State} {addr : Nat}
    (h : ∀ i, (vm'.vmas i).start = (vm.vmas i).start ∧ (vm'.vmas i).endAddr = (vm.vmas i).endAddr) :
    ∀ (l : List Nat) (best : Option Nat), Mm.findVmaFrom vm' addr best l = Mm.findVmaFrom vm addr best l
  | [], _ => rfl
  | i :: l, best => by
    have hbest : best.all (fun b => (vm.vmas i).start < (vm'.vmas b).start) =
        best.all fun b => (vm.vmas i).start < (vm.vmas b).start := by
      cases best with
      | none => rfl
      | some b => simp only [Option.all_some, (h b).1]
    rw [Mm.findVmaFrom, Mm.findVmaFrom, (h i).1, (h i).2, findVmaFrom_congr h l, findVmaFrom_congr h l, hbest]

/-- **A zeroed page mapped for the area `a`**: demand paging, and the growth of a stack. -/
theorem mapZeroPage_iff {vm : Mm.State} {a : Mm.Vma} {r : Int} {present : Bool} (h : Spaces s.pt (Root s))
    (hk : s.vm.mms k = some mm) (hv : faultAddr < userTop) (h0 : 0x1000 ≤ faultAddr)
    (hin : (∃ v ∈ s.vm.areas mm, v.start ≤ faultAddr ∧ faultAddr < v.endAddr) ∨ Mm.stackVma s.vm mm faultAddr ≠ none)
    (hsrc : (∃ v ∈ s.vm.areas mm, v.start ≤ faultAddr ∧ faultAddr < v.endAddr) → present = false)
    (hm : mapZeroPage (onCpu s k) (alignDown faultAddr pageSize) (pteFlagsForVma a) = (r, pt'))
    (hallow : ∀ bit, Allows ⟨vm, pt', s.pgd⟩ k faultAddr bit ↔
      (a.start ≤ faultAddr ∧ faultAddr < a.endAddr) ∧ Mm.has a.flags bit = true) :
    GrantsOk s ⟨vm, pt', s.pgd⟩ k faultAddr r ↔ (PageFound s mm k faultAddr present → Permits a faultAddr) := by
  obtain ⟨-, h2, h3⟩ := onCpu_spec (k := k) h ⟨k, hk ▸ rfl, rfl⟩
  rcases (mapZeroPage_spec h2 h3 hv h0 hm).2 with ⟨hr, ha⟩ | ⟨hr, ha, phys, hlt, he⟩
  · have hr0 : r ≠ 0 := by
      rw [hr]
      decide
    refine iff_of_true ⟨fun h => absurd h hr0, fun h => absurd h hr0, fun mm' hmm hno hst => ?_⟩ fun hpf => absurd ha hpf.page
    cases hk.symm.trans hmm
    rcases hin with ⟨v, hv, hc⟩ | hne
    · exact absurd hc (hno v hv)
    · exact absurd hst hne
  · rw [grantsOk_iff hk hin hr, grants_iff hlt he hallow]
    refine imp_congr_left ⟨fun ht => ⟨ha, ht, fun harea hp => ?_⟩, fun hpf => hpf.tables⟩
    rw [hsrc harea] at hp
    cases hp

/-- The area that `find_vma` answers, among the areas. -/
theorem mem_areas_of_find {i : Nat} (hf : Mm.findVma s.vm mm faultAddr = some i)
    (hin : (s.vm.vmas i).start ≤ faultAddr ∧ faultAddr < (s.vm.vmas i).endAddr) :
    ∃ v ∈ s.vm.areas mm, v.start ≤ faultAddr ∧ faultAddr < v.endAddr :=
  ⟨_, List.mem_map.2 ⟨i, (Mm.findVmaFrom_mem hf).resolve_left (Option.some_ne_none i).symm, rfl⟩, hin⟩

/-- When `find_vma` answers no area with the address, there is none. -/
theorem no_area_of_find (hf : ∀ i, Mm.findVma s.vm mm faultAddr = some i →
    faultAddr < (s.vm.vmas i).start ∨ (s.vm.vmas i).endAddr ≤ faultAddr) :
    ∀ i ∈ s.vm.nodes mm, ¬((s.vm.vmas i).start ≤ faultAddr ∧ faultAddr < (s.vm.vmas i).endAddr) := by
  intro i hi hc
  obtain ⟨j, hj, h1, h2⟩ := @Mm.findVmaFrom_of_mem s.vm faultAddr _ none ⟨i, hi, hc⟩
  rcases hf j hj with h | h <;> omega

/-- The area that has grown is the only one with the address. -/
theorem allows_grown {i bit : Nat} {a : Mm.Vma} (hk : s.vm.mms k = some mm) (hi : i ∈ s.vm.nodes mm)
    (hno : ∀ i ∈ s.vm.nodes mm, ¬((s.vm.vmas i).start ≤ faultAddr ∧ faultAddr < (s.vm.vmas i).endAddr)) :
    Allows ⟨s.vm.setVma i a, pt', s.pgd⟩ k faultAddr bit ↔
      (a.start ≤ faultAddr ∧ faultAddr < a.endAddr) ∧ Mm.has a.flags bit = true := by
  have hval : (s.vm.setVma i a).vmas i = a := Function.update_self _ _ _
  have hother : ∀ j, j ≠ i → (s.vm.setVma i a).vmas j = s.vm.vmas j := fun j hj => Function.update_of_ne hj _ _
  have honly : ∀ j ∈ s.vm.nodes mm, ((s.vm.setVma i a).vmas j).start ≤ faultAddr ∧
      faultAddr < ((s.vm.setVma i a).vmas j).endAddr → j = i := by
    intro j hj hc
    by_contra hne
    rw [hother j hne] at hc
    exact hno j hj hc
  by_cases hc : a.start ≤ faultAddr ∧ faultAddr < a.endAddr
  · have hc' : ((s.vm.setVma i a).vmas i).start ≤ faultAddr ∧ faultAddr < ((s.vm.setVma i a).vmas i).endAddr := by
      rw [hval]
      exact hc
    obtain ⟨j, hj, hcj⟩ := @Mm.findVmaFrom_of_mem (s.vm.setVma i a) faultAddr _ none ⟨i, hi, hc'⟩
    have hji := honly j ((Mm.findVmaFrom_mem hj).resolve_left (Option.some_ne_none j).symm) hcj
    subst hji
    refine (allows_of_find (s := ⟨s.vm.setVma j a, pt', s.pgd⟩) hk hj).trans ?_
    dsimp only
    rw [hval]
  · refine iff_of_false ?_ fun h => hc h.1
    rintro ⟨mm', hmm, j, hj, hcj, -⟩
    cases hk.symm.trans hmm
    have hji := honly j ((Mm.findVmaFrom_mem hj).resolve_left (Option.some_ne_none j).symm) hcj
    subst hji
    dsimp only at hcj
    rw [hval] at hcj
    exact hc hcj

theorem handleStackGrowth_iff {r : Int} {present : Bool} (h : Spaces s.pt (Root s)) (hk : s.vm.mms k = some mm)
    (hv : faultAddr < userTop) (h0 : 0x1000 ≤ faultAddr)
    (hf : ∀ i, Mm.findVma s.vm mm faultAddr = some i → faultAddr < (s.vm.vmas i).start ∨ (s.vm.vmas i).endAddr ≤ faultAddr)
    (hcall : handleStackGrowth s k mm faultAddr = (r, s')) :
    GrantsOk s s' k faultAddr r ↔ ∀ v ∈ grownArea s.vm mm faultAddr, PageFound s mm k faultAddr present → Permits v faultAddr := by
  have hno := no_area_of_find hf
  have hsrc : (∃ v ∈ s.vm.areas mm, v.start ≤ faultAddr ∧ faultAddr < v.endAddr) → present = false := by
    rintro ⟨v, hv, hc⟩
    obtain ⟨i, hi, rfl⟩ := List.mem_map.1 hv
    exact absurd hc (hno i hi)
  unfold handleStackGrowth at hcall
  unfold grownArea
  cases hs : Mm.stackVma s.vm mm faultAddr with
  | none =>
    rw [hs] at hcall
    cases hcall
    exact iff_of_true (grantsOk_of_refused (by decide) rfl) fun v hv => by cases hv
  | some i =>
    rw [hs] at hcall
    dsimp only at hcall
    have hval : (s.vm.setVma i { s.vm.vmas i with start := alignDown faultAddr pageSize }).vmas i =
        { s.vm.vmas i with start := alignDown faultAddr pageSize } := Function.update_self _ _ _
    rw [hval] at hcall
    rcases hm : mapZeroPage (onCpu s k) (alignDown faultAddr pageSize)
      (pteFlagsForVma { s.vm.vmas i with start := alignDown faultAddr pageSize }) with ⟨r', pt'⟩
    rw [hm] at hcall
    cases hcall
    have hne : Mm.stackVma s.vm mm faultAddr ≠ none := by
      rw [hs]
      exact Option.some_ne_none i
    have hi : i ∈ s.vm.nodes mm := List.mem_of_find?_eq_some hs
    refine (mapZeroPage_iff h hk hv h0 (.inr hne) hsrc hm fun bit => allows_grown hk hi hno).trans ?_
    rw [Option.map_some]
    exact ⟨fun hp v hv => by cases hv; exact hp, fun hp => hp _ rfl⟩

theorem handleAnonFault_iff {i : Nat} {r : Int} (h : Spaces s.pt (Root s)) (hk : s.vm.mms k = some mm)
    (hv : faultAddr < userTop) (h0 : 0x1000 ≤ faultAddr) (hf : Mm.findVma s.vm mm faultAddr = some i)
    (hin : (s.vm.vmas i).start ≤ faultAddr ∧ faultAddr < (s.vm.vmas i).endAddr)
    (hcall : handleAnonFault s k i faultAddr = (r, s')) :
    GrantsOk s s' k faultAddr r ↔ (PageFound s mm k faultAddr false → Permits (s.vm.vmas i) faultAddr) := by
  unfold handleAnonFault at hcall
  rcases hm : mapZeroPage (onCpu s k) (alignDown faultAddr pageSize) (pteFlagsForVma (s.vm.vmas i)) with ⟨r', pt'⟩
  rw [hm] at hcall
  cases hcall
  refine mapZeroPage_iff h hk hv h0 (.inl (mem_areas_of_find hf hin)) (fun _ => rfl) hm fun bit => ?_
  have hk' : (⟨s.vm, pt', s.pgd⟩ : System).vm.mms k = some mm := hk
  exact allows_of_find hk' hf

/-- A page taken and written is written once more. -/
theorem Filled.fillPage {n : Nat} (h : Filled pt pt' n) (hd : pageSize ∣ n) (words : Nat → Nat) :
    Filled pt (AddrSpace.fillPage pt' n words) n := by
  refine ⟨h.free, h.still, fun a ha => ?_, h.base, h.kernelPml4, h.cr3⟩
  rw [← h.mem a ha]
  exact if_neg fun hc => ha (alignDown_eq_of_dvd hd hc.1 hc.2)

/-- The areas after `handle_cow`: only `VM_COW` is gone, from a `vm_flags`. -/
theorem allows_cow {i bit : Nat} (hk : s.vm.mms k = some mm) (hf : Mm.findVma s.vm mm faultAddr = some i) :
    Allows ⟨(Mm.handleCow s.vm i true).2, pt', s.pgd⟩ k faultAddr bit ↔
      ((s.vm.vmas i).start ≤ faultAddr ∧ faultAddr < (s.vm.vmas i).endAddr) ∧ Mm.has (s.vm.vmas i).flags bit = true := by
  have hsame : ∀ j, ((Mm.handleCow s.vm i true).2.vmas j).start = (s.vm.vmas j).start ∧
      ((Mm.handleCow s.vm i true).2.vmas j).endAddr = (s.vm.vmas j).endAddr ∧
      ((Mm.handleCow s.vm i true).2.vmas j).flags = (s.vm.vmas j).flags := by
    intro j
    show (Function.update s.vm.vmas i _ j).start = _ ∧ (Function.update s.vm.vmas i _ j).endAddr = _ ∧
      (Function.update s.vm.vmas i _ j).flags = _
    by_cases hj : j = i
    · subst hj
      rw [Function.update_self]
      exact ⟨rfl, rfl, rfl⟩
    · rw [Function.update_of_ne hj]
      exact ⟨rfl, rfl, rfl⟩
  have hfind : Mm.findVma (Mm.handleCow s.vm i true).2 mm faultAddr = some i :=
    (findVmaFrom_congr (fun j => ⟨(hsame j).1, (hsame j).2.1⟩) _ _).trans hf
  refine (allows_of_find (s := ⟨(Mm.handleCow s.vm i true).2, pt', s.pgd⟩) hk hfind).trans ?_
  dsimp only
  rw [(hsame i).1, (hsame i).2.1, (hsame i).2.2]

/-- What a call that returns did. -/
theorem handleCow_cases {i : Nat} {r : Int} (hcall : handleCow s k i faultAddr = some (r, s')) :
    (r = -1 ∧ vmmGetPhysIn s.pt.mem (s.pgd k) (alignDown faultAddr pageSize) = 0 ∧ s' = s) ∨
    (r = -1 ∧ (allocZeroPage (onCpu s k)).1 = 0 ∧ s' = ⟨s.vm, (allocZeroPage (onCpu s k)).2, s.pgd⟩) ∨
    (r = 0 ∧ vmmGetPhysIn s.pt.mem (s.pgd k) (alignDown faultAddr pageSize) ≠ 0 ∧
      ∃ m pt src, allocZeroPage (onCpu s k) = (m + 1, pt) ∧
        s' = ⟨(Mm.handleCow s.vm i true).2, vmmMapPage (copyPage pt (m + 1) src) (alignDown faultAddr pageSize) (m + 1)
          (pteFlagsForVma (s.vm.vmas i)), s.pgd⟩) := by
  unfold handleCow at hcall
  dsimp only at hcall
  split at hcall
  · rename_i h0
    cases hcall
    exact .inl ⟨rfl, h0, rfl⟩
  rename_i h0
  rcases ha : allocZeroPage (onCpu s k) with ⟨_ | m, pt⟩
  · rw [ha] at hcall
    cases hcall
    exact .inr (.inl ⟨rfl, rfl, rfl⟩)
  rw [ha] at hcall
  by_cases hx : NoExec (vmmGetPhysIn s.pt.mem (s.pgd k) (alignDown faultAddr pageSize))
  · cases (if_pos hx).symm.trans hcall
  · cases (if_neg hx).symm.trans hcall
    exact .inr (.inr ⟨rfl, h0, m, pt, _, rfl, rfl⟩)

theorem handleCow_iff {i : Nat} {r : Int} (h : Spaces s.pt (Root s)) (hk : s.vm.mms k = some mm)
    (hv : faultAddr < userTop) (h0 : 0x1000 ≤ faultAddr) (hf : Mm.findVma s.vm mm faultAddr = some i)
    (hin : (s.vm.vmas i).start ≤ faultAddr ∧ faultAddr < (s.vm.vmas i).endAddr)
    (hcall : handleCow s k i faultAddr = some (r, s')) :
    GrantsOk s s' k faultAddr r ↔ (PageFound s mm k faultAddr true → Permits (s.vm.vmas i) faultAddr) := by
  obtain ⟨-, h2, h3⟩ := onCpu_spec (k := k) h ⟨k, hk ▸ rfl, rfl⟩
  have harea := mem_areas_of_find hf hin
  -- a fault in an area: what is outside is of no concern
  have hrefused : r = -1 → ¬PageFound s mm k faultAddr true →
      (GrantsOk s s' k faultAddr r ↔ (PageFound s mm k faultAddr true → Permits (s.vm.vmas i) faultAddr)) := by
    intro hr hno
    have hr0 : r ≠ 0 := by
      rw [hr]
      decide
    refine iff_of_true ⟨fun h => absurd h hr0, fun h => absurd h hr0, fun mm' hmm hno _ => ?_⟩ fun hp => absurd hp hno
    cases hk.symm.trans hmm
    obtain ⟨v, hv, hc⟩ := harea
    exact absurd hc (hno v hv)
  rcases handleCow_cases hcall with ⟨hr, hzero, -⟩ | ⟨hr, ha, -⟩ | ⟨hr, hphys, m, pt, src, ha, rfl⟩
  · exact hrefused hr fun hp => hp.source harea rfl hzero
  · exact hrefused hr fun hp => hp.page ha
  have hn := (allocZeroPage_cases h2 ha).resolve_left fun hc => Nat.succ_ne_zero m hc.1
  have hd := h2.dvd_of_free hn.free
  obtain ⟨hw1, hl1⟩ := h2.filled hn
  have hcopy : Filled (onCpu s k) (copyPage pt (m + 1) src) (m + 1) := Filled.fillPage hn hd _
  obtain ⟨hw2, hl2⟩ := h2.filled hcopy
  have hp := alignDown_user hv
  -- the page to copy is mapped, so that its tables are there
  have hpres : leaf (onCpu s k) (s.pgd k) (alignDown faultAddr pageSize) ≠ 0 := by
    intro hz
    refine hphys ((h2.vmmGetPhysIn_eq hp).trans ?_)
    rw [hz, if_neg not_present_zero]
  have ht1 : (obtainPt pt (s.pgd k) (alignDown faultAddr pageSize)).1.isSome = true :=
    obtainPt_isSome (hw1.space h2) hp (by rw [hl1 _ hp]; exact hpres)
  have ht2 : (obtainPt (copyPage pt (m + 1) src) (s.pgd k) (alignDown faultAddr pageSize)).1.isSome = true :=
    obtainPt_isSome (hw2.space h2) hp (by rw [hl2 _ hp]; exact hpres)
  have hfound : PageFound s mm k faultAddr true :=
    ⟨by rw [ha]; exact Nat.succ_ne_zero m, by rw [ha]; exact ht1, fun _ _ => hphys⟩
  have he := (leaf_mapped (m + 1) (pteFlagsForVma (s.vm.vmas i)) (hw2.space h2) (hw2.readCr3 h3) hv h0).2
  have hlt := h2.lt_of_free hn.free
  refine (grantsOk_iff hk (.inl harea) hr).trans ((grants_iff hlt he fun bit => allows_cow hk hf).trans ?_)
  exact imp_congr_left (iff_of_true ht2 hfound)

/-! ## Any fault -/

theorem doPageFault_iff {r : Int} {present write user : Bool} (h : Spaces s.pt (Root s)) (hv : faultAddr < userTop)
    (hcall : doPageFault s k faultAddr present write user = some (r, s')) :
    GrantsOk s s' k faultAddr r ↔ FaultOk s k faultAddr present write user := by
  unfold doPageFault at hcall
  unfold FaultOk
  by_cases hlow : user = false ∨ faultAddr < 0x1000
  · rw [if_pos hlow] at hcall
    cases hcall
    refine iff_of_true (grantsOk_of_refused (by decide) rfl) fun hu h0 => ?_
    rcases hlow with hlow | hlow
    · rw [hlow] at hu
      cases hu
    · omega
  rw [if_neg hlow] at hcall
  obtain ⟨hu, hlow'⟩ := not_or.1 hlow
  have h0 : 0x1000 ≤ faultAddr := Nat.not_lt.1 hlow'
  have hu' : user = true := Bool.of_not_eq_false hu
  rw [imp_iff_right hu', imp_iff_right h0]
  cases hk : s.vm.mms k with
  | none =>
    rw [hk] at hcall
    cases hcall
    exact iff_of_true (grantsOk_of_refused (by decide) rfl) fun mm hmm => by cases hmm
  | some mm =>
    rw [hk] at hcall
    dsimp only at hcall
    have hone : ∀ P : Mm.MmStruct → Prop, (∀ mm' ∈ some mm, P mm') ↔ P mm :=
      fun P => ⟨fun hP => hP mm rfl, fun hP mm' hmm => by cases hmm; exact hP⟩
    rw [hone]
    unfold areaFor
    cases hf : Mm.findVma s.vm mm faultAddr with
    | none =>
      rw [hf] at hcall
      refine handleStackGrowth_iff h hk hv h0 (fun i hi => ?_) (Option.some.inj hcall)
      rw [hf] at hi
      cases hi
    | some i =>
      rw [hf] at hcall
      dsimp only at hcall ⊢
      by_cases hout : faultAddr < (s.vm.vmas i).start ∨ (s.vm.vmas i).endAddr ≤ faultAddr
      · rw [if_pos hout] at hcall ⊢
        refine handleStackGrowth_iff h hk hv h0 (fun j hj => ?_) (Option.some.inj hcall)
        rw [hf] at hj
        cases hj
        exact hout
      rw [if_neg hout] at hcall ⊢
      have hin : (s.vm.vmas i).start ≤ faultAddr ∧ faultAddr < (s.vm.vmas i).endAddr := by
        obtain ⟨h1, h2⟩ := not_or.1 hout
        exact ⟨Nat.not_lt.1 h1, Nat.not_le.1 h2⟩
      have hval : ∀ P : Mm.Vma → Prop, (∀ v ∈ some (s.vm.vmas i), P v) ↔ P (s.vm.vmas i) :=
        fun P => ⟨fun hP => hP _ rfl, fun hP v hv => by cases hv; exact hP⟩
      have hrefused : ∀ x : Option (Int × System), x = some (-1, s) → x = some (r, s') → GrantsOk s s' k faultAddr r := by
        intro x h1 h2
        cases h1.symm.trans h2
        exact grantsOk_of_refused (by decide) rfl
      by_cases hpw : present = true ∧ write = true
      · obtain ⟨rfl, rfl⟩ := hpw
        rw [if_pos ⟨rfl, rfl⟩] at hcall ⊢
        by_cases hw : Mm.has (s.vm.vmas i).vmFlags Mm.vmWrite = true
        · rw [if_pos hw] at hcall ⊢
          exact (handleCow_iff h hk hv h0 hf hin hcall).trans
            (hval fun v => PageFound s mm k faultAddr true → Permits v faultAddr).symm
        · rw [if_neg hw] at hcall ⊢
          exact iff_of_true (hrefused _ rfl hcall) fun v hv => by cases hv
      rw [if_neg hpw] at hcall ⊢
      by_cases hp : present = true
      · rw [if_pos hp] at hcall ⊢
        exact iff_of_true (hrefused _ rfl hcall) fun v hv => by cases hv
      rw [if_neg hp] at hcall ⊢
      by_cases hrx : Mm.has (s.vm.vmas i).vmFlags Mm.vmRead = false ∧ Mm.has (s.vm.vmas i).vmFlags Mm.vmExec = false
      · rw [if_pos hrx] at hcall ⊢
        exact iff_of_true (hrefused _ rfl hcall) fun v hv => by cases hv
      rw [if_neg hrx] at hcall ⊢
      rw [Bool.of_not_eq_true hp]
      exact (handleAnonFault_iff h hk hv h0 hf hin (Option.some.inj hcall)).trans
        (hval fun v => PageFound s mm k faultAddr false → Permits v faultAddr).symm

/-! ## Runs -/

theorem handleStackGrowth_onTree (mm : Mm.MmStruct) (h : Spaces s.pt (Root s)) (hk : (s.vm.mms k).isSome = true)
    (hv : faultAddr < userTop) :
    (handleStackGrowth s k mm faultAddr).2 = s ∨ OnTree s (handleStackGrowth s k mm faultAddr).2 k := by
  obtain ⟨-, h2, h3⟩ := onCpu_spec (k := k) h ⟨k, hk, rfl⟩
  unfold handleStackGrowth
  split
  · exact .inl rfl
  · exact .inr ⟨mapZeroPage_works _ h2 h3 (alignDown_user hv), rfl, fun _ => rfl⟩

theorem handleCow_onTree {i : Nat} {r : Int} (h : Spaces s.pt (Root s)) (hk : (s.vm.mms k).isSome = true)
    (hv : faultAddr < userTop) (hcall : handleCow s k i faultAddr = some (r, s')) : s' = s ∨ OnTree s s' k := by
  obtain ⟨-, h2, h3⟩ := onCpu_spec (k := k) h ⟨k, hk, rfl⟩
  rcases handleCow_cases hcall with ⟨-, -, rfl⟩ | ⟨-, ha, rfl⟩ | ⟨-, -, m, pt, src, ha, rfl⟩
  · exact .inl rfl
  · refine .inr ⟨?_, rfl, fun _ => rfl⟩
    rcases allocZeroPage_cases h2 rfl with ⟨-, hw⟩ | hn
    · exact hw
    · exact (h2.filled hn).1
  · have hn := (allocZeroPage_cases h2 ha).resolve_left fun hc => Nat.succ_ne_zero m hc.1
    have hcopy : Filled (onCpu s k) (copyPage pt (m + 1) src) (m + 1) := Filled.fillPage hn (h2.dvd_of_free hn.free) _
    have hw := (h2.filled hcopy).1
    exact .inr ⟨hw.trans (vmmMapPage_works _ _ (hw.space h2) (hw.readCr3 h3) (alignDown_user hv)), rfl, fun _ => rfl⟩

theorem doPageFault_spaces {r : Int} {present write user : Bool} (h : Spaces s.pt (Root s)) (hv : faultAddr < userTop)
    (hcall : doPageFault s k faultAddr present write user = some (r, s')) : Spaces s'.pt (Root s') := by
  have hdone : s' = s ∨ ((s.vm.mms k).isSome = true ∧ OnTree s s' k) → Spaces s'.pt (Root s') := by
    rintro (rfl | ⟨hk, ht⟩)
    · exact h
    · exact ht.spaces h hk
  have hgrow : ∀ mm, (s.vm.mms k).isSome = true → some (handleStackGrowth s k mm faultAddr) = some (r, s') →
      Spaces s'.pt (Root s') := by
    intro mm hk he
    have hs' : (handleStackGrowth s k mm faultAddr).2 = s' := congrArg Prod.snd (Option.some.inj he)
    rw [← hs']
    rcases handleStackGrowth_onTree mm h hk hv with h1 | h1
    · rw [h1]
      exact h
    · exact h1.spaces h hk
  have hrefused : some ((-1 : Int), s) = some (r, s') → Spaces s'.pt (Root s') := by
    intro he
    cases he
    exact h
  unfold doPageFault at hcall
  split at hcall
  · exact hrefused hcall
  cases hk : s.vm.mms k with
  | none =>
    rw [hk] at hcall
    exact hrefused hcall
  | some mm =>
    have hk' : (s.vm.mms k).isSome = true := hk ▸ rfl
    rw [hk] at hcall
    dsimp only at hcall
    split at hcall
    · exact hgrow mm hk' hcall
    split at hcall
    · exact hgrow mm hk' hcall
    split at hcall
    · split at hcall
      · exact hdone ((handleCow_onTree h hk' hv hcall).imp_right fun ht => ⟨hk', ht⟩)
      · exact hrefused hcall
    split at hcall
    · exact hrefused hcall
    split at hcall
    · exact hrefused hcall
    · obtain ⟨-, h2, h3⟩ := onCpu_spec (k := k) h ⟨k, hk', rfl⟩
      cases hcall
      exact hdone (.inr ⟨hk', mapZeroPage_works _ h2 h3 (alignDown_user hv), rfl, fun _ => rfl⟩)

/-- **Every step in the user half keeps every address space.** -/
theorem step_spaces {op : Op} (h : Spaces s.pt (Root s)) (hu : UserOnly s op) (hs : step s op = some s') :
    Spaces s'.pt (Root s') := by
  cases op with
  | mmap k addrHint length prot flags offset file node =>
    simp only [step] at hs
    split at hs
    · rename_i hargs
      cases hs
      exact (sysMmap_onTree h hargs.1 hu).spaces h hargs.1
    · cases hs
  | mprotect k addr len prot =>
    simp only [step] at hs
    split at hs
    · cases hs
      by_cases hk : (s.vm.mms k).isSome = true
      · exact sysMprotect_spaces h hk hu
      · have hnone : s.vm.mms k = none := by
          cases hm : s.vm.mms k with
          | none => rfl
          | some mm => exact absurd (hm ▸ rfl) hk
        unfold sysMprotect
        rw [hnone]
        split
        · exact h
        split <;> exact h
    · cases hs
  | fork k new nodes =>
    cases hs
    exact mmCopy_spaces h hu
  | pageFault k faultAddr present write user =>
    simp only [step] at hs
    split at hs
    · obtain ⟨⟨r, t⟩, hf, rfl⟩ := Option.map_eq_some_iff.1 hs
      exact doPageFault_spaces h hu hf
    · cases hs

/-- **After any run of calls in the user half, a page fault grants no more than the area permits exactly when `FaultOk`
holds.** -/
theorem fault_grants_iff (l : List Op) (s₀ s s' : System) (k faultAddr : Nat) (present write user : Bool) (r : Int)
    (h0 : machine.init s₀) (hrun : machine.RunOk UserOnly s₀ l s) (hv : faultAddr < userTop)
    (hcall : doPageFault s k faultAddr present write user = some (r, s')) :
    GrantsOk s s' k faultAddr r ↔ FaultOk s k faultAddr present write user :=
  doPageFault_iff (machine.runOk_invariant (P := fun t => Spaces t.pt (Root t)) (fun _ _ _ => step_spaces) l s₀ s h0 hrun) hv hcall

end Fault

/-- A private page, mapped for reading and writing … -/
def mappedProc : System :=
  (sysMmap (oneProc 30) 0 0x600000 4096 (Mm.protRead ||| Mm.protWrite) (Mm.mapFixed ||| Mm.mapAnonymous) 0 none (some 1)).2

/-- … and then made read and execute. -/
def protectedProc : System := (sysMprotect mappedProc 0 0x600000 4096 (Mm.protRead ||| Mm.protExec)).2

def protectSession : List Op :=
  [.mmap 0 0x600000 4096 (Mm.protRead ||| Mm.protWrite) (Mm.mapFixed ||| Mm.mapAnonymous) 0 none (some 1),
    .mprotect 0 0x600000 4096 (Mm.protRead ||| Mm.protExec)]

theorem oneProc_init : machine.init (oneProc 30) := by
  refine (oneProc_ok (by decide +kernel) (by decide +kernel)).spaces.mono fun r hr => ?_
  obtain ⟨-, -, rfl⟩ := hr
  rfl

theorem protectedProc_run : machine.RunOk UserOnly (oneProc 30) protectSession protectedProc := by
  have h1 : step (oneProc 30) (.mmap 0 0x600000 4096 (Mm.protRead ||| Mm.protWrite)
      (Mm.mapFixed ||| Mm.mapAnonymous) 0 none (some 1)) = some mappedProc := by
    dsimp only [step]
    rw [if_pos ⟨rfl, by decide, by decide, by decide⟩]
    rfl
  have h2 : step mappedProc (.mprotect 0 0x600000 4096 (Mm.protRead ||| Mm.protExec)) = some protectedProc := by
    dsimp only [step]
    rw [if_pos ⟨by decide, by decide⟩]
    rfl
  have hu : ∀ vaddr ∈ mmapTarget (oneProc 30) 0 0x600000 4096 (Mm.mapFixed ||| Mm.mapAnonymous) 0,
      vaddr + Mm.pageAlign 4096 ≤ userTop := by
    decide +kernel
  exact ⟨hu, _, h1, (by decide : add64 0x600000 (Mm.pageAlign 4096) ≤ userTop), _, h2, rfl⟩

/-- The page is writable after the fault `f`, and the area does not permit it. -/
def writesGranted (f : Int × System) (addr : Nat) : Bool :=
  f.1 = 0 ∧ Present (leaf f.2.pt (f.2.pgd 0) addr) ∧ Writable (leaf f.2.pt (f.2.pgd 0) addr) ∧
    ∀ mm ∈ f.2.vm.mms 0, ∀ i ∈ Mm.findVma f.2.vm mm addr, Mm.has (f.2.vm.vmas i).flags Mm.vmWrite = false

/-- A write to the page that is there. -/
theorem protectedProc_fault : (doPageFault protectedProc 0 0x600010 true true true).any (writesGranted · 0x600010) = true := by
  decide +kernel

theorem fault_grants_iff_protected :
    ∃ r s', doPageFault protectedProc 0 0x600010 true true true = some (r, s') ∧
      (GrantsOk protectedProc s' 0 0x600010 r ↔ FaultOk protectedProc 0 0x600010 true true true) := by
  obtain ⟨⟨r, s'⟩, hf, -⟩ := Option.any_eq_true _ _ |>.1 protectedProc_fault
  exact ⟨r, s', hf, fault_grants_iff protectSession (oneProc 30) protectedProc s' 0 0x600010 true true true r oneProc_init
    protectedProc_run (by decide) hf⟩

/-- **Written to after `mprotect`**: the handler makes the page writable, because `vm_flags` still has `VM_WRITE`. -/
theorem not_grantsOk_protected :
    machine.init (oneProc 30) ∧ machine.RunOk UserOnly (oneProc 30) protectSession protectedProc ∧
      ∃ s', doPageFault protectedProc 0 0x600010 true true true = some (0, s') ∧ ¬GrantsOk protectedProc s' 0 0x600010 0 := by
  obtain ⟨⟨r, s'⟩, hf, hw⟩ := Option.any_eq_true _ _ |>.1 protectedProc_fault
  obtain ⟨rfl, hp, hwr, hno⟩ := of_decide_eq_true hw
  refine ⟨oneProc_init, protectedProc_run, s', hf, fun hg => ?_⟩
  obtain ⟨mm, hmm, i, hi, -, hallow⟩ := hg.write rfl hp hwr
  rw [hno mm hmm i hi] at hallow
  cases hallow

end AddrSpace
end Pico
