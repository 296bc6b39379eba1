import Picomimi.ExecSpace
import Picomimi.PagingUnmap
import Picomimi.Lib.ByteView
/-!
# ExecKernel — what a load does to the kernel's tables

`vmm_map_page` takes an address with bit 63 set to `kernel_pml4`, and one below it whose top entry is of the upper half into
the tables all address spaces share; `vmm_user_virt_to_phys` finds the kernel's pages below the same entries.  The loaders
pass both what the file says.  A load that gets to no such page (`ExecUser`) writes to pages that were free, and to no other.
-/
namespace Pico
namespace Exec

open Lib Paging AddrSpace

/-- **Kernel mappings survive**: no entry of `kernel_pml4` changes, nothing changes outside the pages that were free, and
the new address space has the kernel's entries. -/
structure KernelKept (s s' : System) : Prop where
  entries : ∀ a, KernelEntry s.pt a → s'.pt.mem a = s.pt.mem a
  others : ∀ a, ¬s.pt.Free (alignDown a pageSize) → s'.pt.mem a = s.pt.mem a
  upper : ∀ k, s.vm.mms k = none → (s'.vm.mms k).isSome = true → ∀ i, 256 ≤ i → i < 512 →
    s'.pt.mem (slot (s'.pgd k) i) = s.pt.mem (slot s.pt.kernelPml4 i)

/-- What `pmm_init` and the kernel's own start leave: the bitmap counts pages, and the kernel's tables are in use. -/
structure Booted (s : System) : Prop where
  base : pageSize ∣ s.pt.bitmapBase
  top : s.pt.bitmapBase + bitmapPages * pageSize ≤ 0x10000000000000
  used : ∀ a, KernelEntry s.pt a → ¬s.pt.Free (alignDown a pageSize)

/-! ## When a load stays in the user half -/

/-- `vmm_map_page` maps the page in the user half. -/
def MapsUser (virt : Nat) : Prop := virt < pteNx ∧ pml4Idx virt < 256

instance (virt : Nat) : Decidable (MapsUser virt) := inferInstanceAs (Decidable (_ ∧ _))

/-- Every page the loop of `vmm_alloc_pages` maps. -/
def AllocUser (virt flags : Nat) : Nat → Nat → State → Prop
  | 0, _, _ => True
  | n + 1, off, s =>
    match pmmAllocPage s with
    | (0, _) => True
    | (phys, s) =>
      MapsUser (add64 virt off) ∧ AllocUser virt flags n (off + pageSize) (vmmMapPage s (add64 virt off) phys flags)

/-- Every page the copying loop stores to. -/
def CopyUser (file : List UInt8) : Nat → State → Nat → Nat → Nat → Prop
  | 0, _, _, _, _ => True
  | fuel + 1, s, copyVaddr, remaining, filePos =>
    let pgBase := alignDown copyVaddr pageSize
    let pgOff := copyVaddr - pgBase
    let phys := vmmUserVirtToPhys s pgBase
    let data := vfsRead file (min remaining (pageSize - pgOff)) filePos
    remaining ≠ 0 → phys ≠ 0 → data ≠ [] →
      pml4Idx pgBase < 256 ∧
        CopyUser file fuel (copyTo s (phys + pgOff) data) (add64 copyVaddr data.length) (remaining - data.length)
          (filePos + data.length)

def SegmentUser (file : List UInt8) (s : State) (g : Segment) : Prop :=
  let mapped := vmmAllocPages s g.mapStart g.mapSize g.prot
  AllocUser g.mapStart (vmmFlags g.prot) ((g.mapSize + (pageSize - 1)) / pageSize) 0 s ∧
    (mapped.1 ≠ 0 →
      CopyUser file g.filesz ((pagesOf g.mapStart g.mapEnd).foldl zeroPage mapped.2) g.vaddr g.filesz g.offset)

/-- Every segment of an ELF file that the loader gets to. -/
def SegmentsUser (file : List UInt8) (k loadBias : Nat) (nodes : Nat → Option Nat) : Nat → List Elf64Phdr → System → Prop
  | _, [], _ => True
  | i, phdr :: phdrs, s =>
    if phdr.pType ≠ ptLoad then SegmentsUser file k loadBias nodes (i + 1) phdrs s
    else
      let r := elfLoadSegment file s k (nodes i) phdr loadBias
      (phdr.pMemsz ≠ 0 → SegmentUser file s.pt (elfSegment phdr loadBias)) ∧
        (¬r.1 < 0 → SegmentsUser file k loadBias nodes (i + 1) phdrs r.2)

/-- Every segment of a Mach-O file that the loader gets to. -/
def CommandsUser (file : List UInt8) (k loadBias fileBase : Nat) (nodes : Nat → Option Nat) :
    Nat → List UInt8 → System → Prop
  | 0, _, _ => True
  | n + 1, lcp, s =>
    let cmdsize := field lcp 4 4
    if lcp.length < 8 ∨ cmdsize = 0 ∨ lcp.length < cmdsize then True
    else if field lcp 0 4 = lcSegment64 ∧ 72 ≤ cmdsize then
      let seg := readSegment64 lcp
      let r := machoLoadSegment64 file s k (nodes n) seg loadBias fileBase
      (¬(seg.vmsize = 0 ∨ seg.PageZero) → SegmentUser file s.pt (machoSegment seg loadBias fileBase)) ∧
        (¬r.1 < 0 → CommandsUser file k loadBias fileBase nodes n (lcp.drop cmdsize) r.2)
    else CommandsUser file k loadBias fileBase nodes n (lcp.drop cmdsize) s

/-- **The load gets to no page of the kernel's half**, neither to map it nor to store to it. -/
def ExecUser (file : List UInt8) (s : System) (a : Answers) : Prop :=
  ∀ k s₁, mmAlloc s a.mm = (some k, s₁) →
    (machoProbeFile file → ∀ base ∈ machoBase file, ∀ h ∈ machoHeader file base,
      CommandsUser file k h.1 base a.nodes h.2.1 h.2.2 (switchMmTo s₁ k)) ∧
    (¬machoProbeFile file → ∀ h ∈ elfHeaders file,
      SegmentsUser file k h.1.loadBias a.nodes 0 h.2 (switchMmTo s₁ k))

/-! ## The loops -/

section Loops

variable {s₀ s s' : State} {r virt flags off n : Nat} {file : List UInt8}

theorem Loading.allocLoop (flags : Nat) : ∀ {n off : Nat} {s : State}, Loading s₀ s r → AllocUser virt flags n off s →
    Works s (vmmAllocLoop virt flags n off s).2 r ∧ Loading s₀ (vmmAllocLoop virt flags n off s).2 r
  | 0, _, _, h, _ => ⟨h.space.refl, h⟩
  | n + 1, off, s, h, hu => by
    unfold AllocUser at hu
    unfold vmmAllocLoop
    rcases ha : pmmAllocPage s with ⟨_ | m, s₁⟩
    · exact h.allocZero ha
    · rw [ha] at hu
      obtain ⟨hw1, h1, -⟩ := h.mapPage flags ha (Nat.succ_ne_zero m) hu.1.1 hu.1.2
      obtain ⟨hw2, h2⟩ := h1.allocLoop flags hu.2
      exact ⟨hw1.trans hw2, h2⟩

theorem Loading.copyFile : ∀ {fuel copyVaddr remaining filePos : Nat} {s : State}, Loading s₀ s r →
    CopyUser file fuel s copyVaddr remaining filePos →
    Loading s₀ (copyFile file fuel s copyVaddr remaining filePos).2 r
  | 0, _, _, _, _, h, _ => h
  | fuel + 1, copyVaddr, remaining, filePos, s, h, hu => by
    unfold CopyUser at hu
    unfold Exec.copyFile
    dsimp only at hu ⊢
    by_cases h0 : remaining = 0
    · rw [if_pos h0]
      exact h
    rw [if_neg h0]
    by_cases hp : vmmUserVirtToPhys s (alignDown copyVaddr pageSize) = 0
    · rw [if_pos hp]
      exact h
    rw [if_neg hp]
    have hlen : (vfsRead file (min remaining (pageSize - (copyVaddr - alignDown copyVaddr pageSize))) filePos).length ≤
        pageSize - (copyVaddr - alignDown copyVaddr pageSize) :=
      Nat.le_trans (List.length_take_le _ _) (Nat.min_le_right _ _)
    generalize vfsRead file (min remaining (pageSize - (copyVaddr - alignDown copyVaddr pageSize))) filePos = data at hu hlen ⊢
    cases data with
    | nil => exact h
    | cons b data =>
      obtain ⟨h4, hu⟩ := hu h0 hp (List.cons_ne_nil _ _)
      have hoff : copyVaddr - alignDown copyVaddr pageSize + (b :: data).length ≤ pageSize := by
        unfold alignDown pageSize at *
        omega
      exact (h.copyTo _ h4 (dvd_alignDown _ _) hp hoff).1.copyFile hu

theorem Loading.zeroPages : ∀ {l : List Nat} {s : State}, Loading s₀ s r →
    (∀ pg ∈ l, pageSize ∣ pg ∧ pml4Idx pg < 256) → Loading s₀ (l.foldl Exec.zeroPage s) r
  | [], _, h, _ => h
  | pg :: l, s, h, hl => by
    obtain ⟨h1, h2⟩ := hl pg List.mem_cons_self
    exact (h.zeroPage h2 h1).1.zeroPages fun q hq => hl q (List.mem_cons_of_mem pg hq)

/-- When the loop of `vmm_alloc_pages` does not fail it got to every page. -/
theorem mapsUser_of_alloc : ∀ {n off : Nat} {s : State}, AllocUser virt flags n off s →
    (vmmAllocLoop virt flags n off s).1 = true → ∀ j, j < n → MapsUser (add64 virt (off + j * pageSize))
  | 0, _, _, _, _, j, hj => absurd hj (Nat.not_lt_zero j)
  | n + 1, off, s, hu, ht, j, hj => by
    unfold AllocUser at hu
    unfold vmmAllocLoop at ht
    rcases ha : pmmAllocPage s with ⟨_ | m, s₁⟩
    · rw [ha] at ht
      cases ht
    · rw [ha] at hu ht
      cases j with
      | zero =>
        rw [Nat.zero_mul, Nat.add_zero]
        exact hu.1
      | succ j =>
        have h := mapsUser_of_alloc hu.2 ht j (Nat.lt_of_succ_lt_succ hj)
        rw [Nat.add_assoc, Nat.add_comm pageSize, ← Nat.succ_mul] at h
        exact h

theorem Segment.mapEnd_lt (g : Segment) : g.mapEnd < word64 :=
  Nat.lt_of_le_of_lt (Nat.div_mul_le_self _ _) (add64_lt _ _)

/-- The pages that are zeroed are pages the loop of `vmm_alloc_pages` got to. -/
theorem Segment.pages_spec {g : Segment} {pg : Nat} (h : pg ∈ pagesOf g.mapStart g.mapEnd) : pageSize ∣ pg ∧
    ∃ j, j < (g.mapSize + (pageSize - 1)) / pageSize ∧ pg = add64 g.mapStart (0 + j * pageSize) := by
  obtain ⟨j, hj, rfl⟩ := List.mem_map.1 h
  rw [List.mem_range] at hj
  have hend := g.mapEnd_lt
  have hjlt : j * pageSize < g.mapEnd - g.mapStart := by
    unfold pageSize at *
    omega
  have hsize : g.mapSize = g.mapEnd - g.mapStart := sub64_of_le (by omega) hend
  refine ⟨Nat.dvd_add (dvd_alignDown _ _) ⟨j, Nat.mul_comm _ _⟩, j, hsize ▸ hj, ?_⟩
  rw [Nat.zero_add, add64_of_lt]
  omega

/-- **A segment whose pages are in the user half.** -/
theorem Loading.loadSegment {g : Segment} (h : Loading s₀ s r) (hu : SegmentUser file s g) :
    Loading s₀ (loadSegment file s g).2 r := by
  obtain ⟨hu1, hu2⟩ := hu
  have h1 := (h.allocLoop _ hu1).2
  rw [← vmmAllocPages_snd] at h1
  rw [loadSegment_eq]
  split
  · exact h1
  · rename_i hne
    have hmaps := mapsUser_of_alloc hu1 (vmmAllocPages_ne_zero hne).1
    refine (h1.zeroPages fun pg hpg => ?_).copyFile (hu2 hne)
    obtain ⟨hd, j, hj, rfl⟩ := Segment.pages_spec hpg
    exact ⟨hd, (hmaps j hj).2⟩

end Loops

/-! ## A whole load -/

/-- The load of the image `k`. -/
structure Loads (s₀ s : System) (k : Nat) : Prop where
  pt : Loading s₀.pt s.pt (s.pgd k)
  mms : ∀ j, j ≠ k → s.vm.mms j = s₀.vm.mms j

section Run

variable {s₀ s : System} {k : Nat} {file : List UInt8} {nodes : Nat → Option Nat}

theorem vmaAlloc_mms (vm : Mm.State) (node : Option Nat) : (Mm.vmaAlloc vm node).2.mms = vm.mms := by
  unfold Mm.vmaAlloc
  split
  · rfl
  · split <;> rfl

theorem segmentArea_mms (vm : Mm.State) (g : Segment) (node : Option Nat) {j : Nat} (hj : j ≠ k) :
    (segmentArea vm k g node).mms j = vm.mms j := by
  have ha := vmaAlloc_mms vm node
  unfold segmentArea
  rcases h : Mm.vmaAlloc vm node with ⟨_ | i, vm₁⟩
  · rw [h] at ha
    exact congrFun ha j
  · rw [h] at ha
    refine Eq.trans ?_ (congrFun ha j)
    have hinsert : ∀ vm₂ : Mm.State, (Mm.insertVma vm₂ k i).mms j = vm₂.mms j := by
      intro vm₂
      unfold Mm.insertVma
      split
      · rfl
      · exact Function.update_of_ne hj _ _
    dsimp only
    unfold Mm.addTotalVm
    split
    · exact hinsert _
    · exact (Function.update_of_ne hj _ _).trans (hinsert _)

theorem setStartBrk_mms (vm : Mm.State) (segEnd : Nat) {j : Nat} (hj : j ≠ k) : (setStartBrk vm k segEnd).mms j = vm.mms j := by
  unfold setStartBrk
  split
  · rfl
  · split
    · rfl
    · exact Function.update_of_ne hj _ _

theorem Loads.mapSegment {g : Segment} {node : Option Nat} (h : Loads s₀ s k) (hu : SegmentUser file s.pt g) :
    Loads s₀ (mapSegment file s k node g).2 k := by
  have hpt := h.pt.loadSegment hu
  unfold Exec.mapSegment
  generalize Exec.loadSegment file s.pt g = res at hpt ⊢
  obtain ⟨r, pt⟩ := res
  dsimp only at hpt ⊢
  split
  · exact ⟨hpt, h.mms⟩
  · exact ⟨hpt, fun j hj => (segmentArea_mms s.vm g node hj).trans (h.mms j hj)⟩

theorem Loads.elfSegment (node : Option Nat) {phdr : Elf64Phdr} {loadBias : Nat} (h : Loads s₀ s k)
    (hu : phdr.pMemsz ≠ 0 → SegmentUser file s.pt (elfSegment phdr loadBias)) :
    Loads s₀ (elfLoadSegment file s k node phdr loadBias).2 k := by
  unfold elfLoadSegment
  split
  · exact h
  · rename_i hne
    exact h.mapSegment (hu hne)

theorem Loads.segments {loadBias : Nat} : ∀ {phdrs : List Elf64Phdr} {i : Nat} {s : System}, Loads s₀ s k →
    SegmentsUser file k loadBias nodes i phdrs s → Loads s₀ (loadSegments file k loadBias nodes i phdrs s).2 k
  | [], _, _, h, _ => h
  | phdr :: phdrs, i, s, h, hu => by
    unfold SegmentsUser at hu
    unfold loadSegments
    by_cases ht : phdr.pType ≠ ptLoad
    · rw [if_pos ht] at hu ⊢
      exact h.segments hu
    · rw [if_neg ht] at hu ⊢
      have h1 := h.elfSegment (nodes i) hu.1
      have h2 := hu.2
      generalize elfLoadSegment file s k (nodes i) phdr loadBias = res at h1 h2 ⊢
      obtain ⟨r, s₁⟩ := res
      dsimp only at h1 h2 ⊢
      split
      · exact h1
      · rename_i hr
        exact h1.segments (h2 hr)

theorem Loads.commands {loadBias fileBase : Nat} : ∀ {n : Nat} {lcp : List UInt8} (info : MachoInfo) {s : System},
    Loads s₀ s k → CommandsUser file k loadBias fileBase nodes n lcp s →
    Loads s₀ (machoCommands file k loadBias fileBase nodes n lcp info s).2.2 k
  | 0, _, _, _, h, _ => h
  | n + 1, lcp, info, s, h, hu => by
    unfold CommandsUser at hu
    unfold machoCommands
    dsimp only at hu ⊢
    by_cases hend : lcp.length < 8 ∨ field lcp 4 4 = 0 ∨ lcp.length < field lcp 4 4
    · rw [if_pos hend]
      exact h
    rw [if_neg hend] at hu ⊢
    by_cases hseg : field lcp 0 4 = lcSegment64 ∧ 72 ≤ field lcp 4 4
    · rw [if_pos hseg] at hu ⊢
      have h1 : Loads s₀ (machoLoadSegment64 file s k (nodes n) (readSegment64 lcp) loadBias fileBase).2 k := by
        unfold machoLoadSegment64
        split
        · exact h
        · rename_i hne
          exact h.mapSegment (hu.1 hne)
      have h2 := hu.2
      generalize machoLoadSegment64 file s k (nodes n) (readSegment64 lcp) loadBias fileBase = res at h1 h2 ⊢
      obtain ⟨r, s₁⟩ := res
      dsimp only at h1 h2 ⊢
      split
      · exact h1
      · rename_i hr
        exact h1.commands _ (h2 hr)
    rw [if_neg hseg] at hu ⊢
    split
    · exact h.commands _ hu
    split
    · exact h.commands _ hu
    · exact h.commands _ hu

theorem Loads.kept {s₁ : System} (h : Loads s₀ s k) (hm : s₁.pt.mem = s.pt.mem) (hp : s₁.pgd = s.pgd)
    (hv : ∀ j, j ≠ k → s₁.vm.mms j = s.vm.mms j) (hb : Booted s₀) : KernelKept s₀ s₁ := by
  have hothers : ∀ a, ¬s₀.pt.Free (alignDown a pageSize) → s₁.pt.mem a = s₀.pt.mem a := by
    intro a ha
    rw [hm]
    exact h.pt.frame a ha
  refine ⟨fun a ha => hothers a (hb.used a ha), hothers, fun j hnone hsome i h1 h2 => ?_⟩
  by_cases hj : j = k
  · subst hj
    rw [hm, hp]
    exact h.pt.upper i h1 h2
  · rw [hv j hj, h.mms j hj, hnone] at hsome
    cases hsome

/-! ## The new address space -/

theorem mmAllocPgd_upper {s s' : State} {n : Nat} (hn : n ≠ 0) (h : mmAllocPgd s = (n, s')) {i : Nat} (h1 : 256 ≤ i)
    (h2 : i < 512) : s'.mem (slot n i) = s.mem (slot s.kernelPml4 i) := by
  unfold mmAllocPgd at h
  rcases ha : pmmAllocPage s with ⟨_ | m, s₁⟩
  · rw [ha] at h
    cases h
    exact absurd rfl hn
  · rw [ha] at h
    cases h
    have ht : Taken s s₁ (m + 1) := (pmmAllocPage_spec ha).resolve_left fun hc => Nat.succ_ne_zero m hc.1
    have hin : m + 1 + 2048 ≤ slot (m + 1) i ∧ slot (m + 1) i < m + 1 + pageSize := by
      unfold slot pageSize
      omega
    have hsub : slot (m + 1) i - (m + 1) = 8 * i := Nat.add_sub_cancel_left _ _
    dsimp only
    rw [if_pos hin, ht.mem, ht.kernelPml4, hsub]
    rfl

/-- **What `mm_alloc` starts a load from.** -/
theorem mmAlloc_loads {s₁ : System} {new : Option Nat} (hb : Booted s) (h : mmAlloc s new = (some k, s₁)) :
    Loads s (switchMmTo s₁ k) k ∧ ∀ w, w < userTop → ¬Present (leaf (switchMmTo s₁ k).pt (s₁.pgd k) w) := by
  unfold mmAlloc at h
  cases new with
  | none => cases h
  | some j =>
    dsimp only at h
    split at h
    · cases h
    rcases ha : mmAllocPgd s.pt with ⟨_ | m, pt⟩
    · rw [ha] at h
      cases h
    · rw [ha] at h
      cases h
      obtain ⟨hf, hz⟩ := (mmAllocPgd_spec hb.base ha).resolve_left fun hc => Nat.succ_ne_zero m hc.1
      have hno : Spaces s.pt fun _ => False := ⟨fun _ h => h.elim, fun _ _ h => h.elim, hb.base, hb.top⟩
      have hspace := (hno.newRoot hf hz).space (m + 1) (.inr rfl)
      have hd : pageSize ∣ m + 1 := hspace.tree.isRoot
      have hpgd : Function.update s.pgd k (m + 1) k = m + 1 := Function.update_self _ _ _
      have hleaf : ∀ w, w < userTop → ¬Present (leaf pt (m + 1) w) := by
        intro w hw hp
        rw [leaf_newRoot hz hw] at hp
        exact not_present_zero hp
      refine ⟨⟨?_, fun j hj => Function.update_of_ne hj _ _⟩, fun w hw => ?_⟩
      case refine_2 =>
        show ¬Present (leaf pt (Function.update s.pgd k (m + 1) k) w)
        rw [hpgd]
        exact hleaf w hw
      show Loading s.pt { pt with cr3 := Function.update s.pgd k (m + 1) k } (Function.update s.pgd k (m + 1) k)
      rw [hpgd]
      refine ⟨⟨⟨hspace.tree, hspace.plain, hspace.base, hspace.top⟩, tableOf_of_dvd hd, fun t ht => (hf.still t ht).1, hf.free,
        fun a ha => ?_, fun a ha => hf.mem_of_not_free ha, fun i h1 h2 => mmAllocPgd_upper (Nat.succ_ne_zero m) ha h1 h2,
        hf.kernelPml4, hf.base⟩, fun w hw hp => absurd hp (hleaf w hw), fun w v hw hv hp => absurd hp (hleaf w hw)⟩
      have hroot : alignDown a pageSize = m + 1 := Layout.home_of_owned_empty hz hd ha
      rw [hroot]
      exact hf.free

/-- When there is no address space, nothing is written. -/
theorem mmAlloc_none {s₁ : System} {new : Option Nat} (hb : Booted s) (h : mmAlloc s new = (none, s₁)) : KernelKept s s₁ := by
  have hkept : s₁.vm = s.vm → s₁.pt.mem = s.pt.mem → KernelKept s s₁ := by
    intro hv hm
    refine ⟨fun a _ => congrFun hm a, fun a _ => congrFun hm a, fun k hnone hsome => ?_⟩
    rw [hv, hnone] at hsome
    cases hsome
  unfold mmAlloc at h
  cases new with
  | none =>
    cases h
    exact hkept rfl rfl
  | some j =>
    dsimp only at h
    split at h
    · cases h
      exact hkept rfl rfl
    rcases ha : mmAllocPgd s.pt with ⟨_ | m, pt⟩
    · rw [ha] at h
      cases h
      rcases mmAllocPgd_spec hb.base ha with ⟨-, rfl | ht⟩ | ⟨hf, -⟩
      · exact hkept rfl rfl
      · exact hkept rfl ht.mem
      · -- page 0 is not a root
        refine hkept rfl ?_
        unfold mmAllocPgd at ha
        rcases hp : pmmAllocPage s.pt with ⟨_ | m, s₁⟩
        · rw [hp] at ha
          cases ha
          rcases pmmAllocPage_spec hp with ⟨-, rfl⟩ | ht
          · rfl
          · exact ht.mem
        · rw [hp] at ha
          cases ha
    · rw [ha] at h
      cases h

theorem KernelKept.refl (s : System) : KernelKept s s :=
  ⟨fun _ _ => rfl, fun _ _ => rfl, fun k hnone hsome => by
    rw [hnone] at hsome
    cases hsome⟩

theorem elfExec_kept {s' : System} {a : Answers} {r : Int} (hb : Booted s) (hprobe : ¬machoProbeFile file)
    (hu : ExecUser file s a) (h : elfExec file s a = (r, s')) : KernelKept s s' := by
  unfold elfExec at h
  split at h
  · cases h
    exact .refl s
  cases hh : elfHeaders file with
  | none =>
    rw [hh] at h
    cases h
    exact .refl s
  | some e =>
    rw [hh] at h
    dsimp only at h
    rcases ha : mmAlloc s a.mm with ⟨_ | k, s₁⟩
    · rw [ha] at h
      cases h
      exact mmAlloc_none hb ha
    · rw [ha] at h
      have hl := (mmAlloc_loads hb ha).1.segments ((hu k s₁ ha).2 hprobe e hh)
      dsimp only at h
      generalize loadSegments file k e.1.loadBias a.nodes 0 e.2 (switchMmTo s₁ k) = res at h hl
      obtain ⟨q, s₂⟩ := res
      dsimp only at h hl
      split at h
      · cases h
        exact hl.kept rfl rfl (fun _ _ => rfl) hb
      · cases h
        exact hl.kept rfl rfl (fun j hj => setStartBrk_mms _ _ hj) hb

theorem machoExec_kept {s' : System} {a : Answers} {r : Int} (hb : Booted s) (hprobe : machoProbeFile file)
    (hu : ExecUser file s a) (h : machoExec file s a = (r, s')) : KernelKept s s' := by
  unfold machoExec at h
  rcases ha : mmAlloc s a.mm with ⟨_ | k, s₁⟩
  · rw [ha] at h
    cases h
    exact mmAlloc_none hb ha
  rw [ha] at h
  have hl : Loads s (machoLoadFile file (switchMmTo s₁ k) k a).2.2 k := by
    have h0 := (mmAlloc_loads hb ha).1
    unfold machoLoadFile
    cases hbase : machoBase file with
    | none => exact h0
    | some fileBase =>
      dsimp only
      unfold machoLoad
      cases hh : machoHeader file fileBase with
      | none => exact h0
      | some hdr =>
        obtain ⟨loadBias, ncmds, lcbuf⟩ := hdr
        dsimp only
        split
        · exact h0
        have h1 := h0.commands ⟨0, false, 0⟩ ((hu k s₁ ha).1 hprobe fileBase hbase _ hh)
        generalize machoCommands file k loadBias fileBase a.nodes ncmds lcbuf ⟨0, false, 0⟩ (switchMmTo s₁ k) = res at h1 ⊢
        obtain ⟨q, info, s₂⟩ := res
        dsimp only at h1 ⊢
        split
        · exact h1
        split
        · exact h1
        · exact h1
  dsimp only at h
  generalize machoLoadFile file (switchMmTo s₁ k) k a = res at h hl
  obtain ⟨q, segEnd, s₂⟩ := res
  dsimp only at h hl
  split at h
  · cases h
    exact hl.kept rfl rfl (fun _ _ => rfl) hb
  · cases h
    exact hl.kept rfl rfl (fun j hj => setStartBrk_mms _ _ hj) hb

/-- **Kernel mappings survive every load that stays in the user half**, whatever the file is and however the load ends. -/
theorem exec_kept_of_user (file : List UInt8) (s s' : System) (a : Answers) (r : Int) (hb : Booted s)
    (hu : ExecUser file s a) (h : doExecve file s a = (r, s')) : KernelKept s s' := by
  unfold doExecve at h
  split at h
  · rename_i hprobe
    exact machoExec_kept hb hprobe hu h
  · rename_i hprobe
    exact elfExec_kept hb hprobe hu h

/-! ## Segments in the user half -/

/-- The memory and the file's bytes of a segment end in the user half. -/
def Segment.InUser (g : Segment) : Prop := g.vaddr + g.memsz ≤ userTop ∧ g.vaddr + g.filesz ≤ userTop

instance (g : Segment) : Decidable g.InUser := inferInstanceAs (Decidable (_ ∧ _))

theorem mapsUser_of_lt {v : Nat} (h : v < userTop) : MapsUser v := ⟨Nat.lt_trans h (by decide), pml4Idx_of_user h⟩

theorem allocUser_of_range {virt flags : Nat} : ∀ {n off : Nat} {s : State}, virt + off + n * pageSize ≤ userTop →
    AllocUser virt flags n off s
  | 0, _, _, _ => trivial
  | n + 1, off, s, h => by
    unfold AllocUser
    rcases pmmAllocPage s with ⟨_ | m, s₁⟩
    · trivial
    · have hadd : add64 virt off = virt + off := by
        apply add64_of_lt
        unfold userTop pageSize word64 at *
        omega
      have hlt : virt + off < userTop := by
        unfold pageSize at h
        omega
      refine ⟨hadd ▸ mapsUser_of_lt hlt, allocUser_of_range ?_⟩
      rw [Nat.succ_mul] at h
      omega

theorem copyUser_of_range : ∀ {fuel copyVaddr remaining filePos : Nat} {s : State}, copyVaddr + remaining ≤ userTop →
    CopyUser file fuel s copyVaddr remaining filePos
  | 0, _, _, _, _, _ => trivial
  | fuel + 1, copyVaddr, remaining, filePos, s, h => by
    unfold CopyUser
    dsimp only
    intro h0 _ _
    have hbase : alignDown copyVaddr pageSize < userTop := Nat.lt_of_le_of_lt (alignDown_le _ _) (by omega)
    have hlen : (vfsRead file (min remaining (pageSize - (copyVaddr - alignDown copyVaddr pageSize))) filePos).length ≤
        remaining := Nat.le_trans (List.length_take_le _ _) (Nat.min_le_left _ _)
    refine ⟨pml4Idx_of_user hbase, copyUser_of_range ?_⟩
    rw [add64_of_lt]
    · omega
    · unfold userTop word64 at *
      omega

theorem Segment.mapEnd_of_user {g : Segment} (h : g.vaddr + g.memsz ≤ userTop) :
    g.vaddr + g.memsz ≤ g.mapEnd ∧ g.mapEnd ≤ userTop ∧ g.mapStart + g.mapSize = g.mapEnd ∧ pageSize ∣ g.mapEnd := by
  have hlt : g.vaddr + g.memsz + (pageSize - 1) < word64 := by
    unfold userTop pageSize word64 at *
    omega
  have hadd : add64 g.vaddr g.memsz = g.vaddr + g.memsz := by
    apply add64_of_lt
    unfold userTop word64 at *
    omega
  have hend : g.mapEnd = (g.vaddr + g.memsz + (pageSize - 1)) / pageSize * pageSize := by
    rw [Segment.mapEnd, hadd, Mm.pageAlign, alignUp]
    exact congrArg (· / pageSize * pageSize) (add64_of_lt hlt)
  have hstart : g.mapStart = g.vaddr / pageSize * pageSize := rfl
  have hle : g.mapStart ≤ g.mapEnd := by
    rw [hend, hstart]
    exact Nat.mul_le_mul_right _ (Nat.div_le_div_right (by omega))
  refine ⟨?_, ?_, ?_, hend ▸ ⟨_, Nat.mul_comm _ _⟩⟩
  · rw [hend]
    unfold pageSize
    omega
  · rw [hend]
    unfold userTop pageSize at *
    omega
  · rw [Segment.mapSize, sub64_of_le hle g.mapEnd_lt]
    omega

theorem Segment.turns {g : Segment} (h : g.vaddr + g.memsz ≤ userTop) :
    (g.mapSize + (pageSize - 1)) / pageSize * pageSize = g.mapSize := by
  obtain ⟨-, -, h3, h4⟩ := Segment.mapEnd_of_user h
  have hstart : pageSize ∣ g.mapStart := dvd_alignDown _ _
  obtain ⟨q, hq⟩ := (Nat.dvd_add_right hstart).1 (h3 ▸ h4)
  rw [hq]
  unfold pageSize
  omega

/-- **A segment in the user half is loaded in the user half.** -/
theorem segmentUser_of_inUser {s : State} {g : Segment} (h : g.InUser) : SegmentUser file s g := by
  obtain ⟨-, h2, h3, -⟩ := Segment.mapEnd_of_user h.1
  refine ⟨allocUser_of_range ?_, fun _ => copyUser_of_range h.2⟩
  rw [Segment.turns h.1]
  omega

theorem segmentsUser_of_inUser {loadBias : Nat} : ∀ {phdrs : List Elf64Phdr} {i : Nat} {s : System},
    (∀ p ∈ phdrs, p.pType = ptLoad → (elfSegment p loadBias).InUser) → SegmentsUser file k loadBias nodes i phdrs s
  | [], _, _, _ => trivial
  | phdr :: phdrs, i, s, h => by
    have ih : ∀ {i s}, SegmentsUser file k loadBias nodes i phdrs s :=
      segmentsUser_of_inUser fun p hp => h p (List.mem_cons_of_mem phdr hp)
    unfold SegmentsUser
    split
    · exact ih
    · rename_i ht
      exact ⟨fun _ => segmentUser_of_inUser (h phdr List.mem_cons_self (not_not.1 ht)), fun _ => ih⟩

end Run

/-! ## A file -/

def phdrBytes (p : Elf64Phdr) : List UInt8 :=
  leBytes 4 p.pType ++ leBytes 4 p.pFlags ++ leBytes 8 p.pOffset ++ leBytes 8 p.pVaddr ++ leBytes 8 p.pVaddr ++
    leBytes 8 p.pFilesz ++ leBytes 8 p.pMemsz ++ leBytes 8 pageSize

/-- An `ET_EXEC` file: the header, the program headers, and then `data`. -/
def elfFile (phdrs : List Elf64Phdr) (data : List UInt8) : List UInt8 :=
  [0x7F, 0x45, 0x4C, 0x46, 2, 1] ++ leBytes 10 1 ++ leBytes 2 2 ++ leBytes 2 62 ++ leBytes 4 1 ++ leBytes 8 0x400000 ++
    leBytes 8 64 ++ leBytes 14 0 ++ leBytes 2 56 ++ leBytes 2 phdrs.length ++ leBytes 6 0 ++ phdrs.flatMap phdrBytes ++ data

/-- No process yet, and 29 pages. -/
def bootSystem : System where
  vm := ⟨fun _ => none, fun _ => ⟨0, 0, 0, 0, 0⟩, ⟨fun _ => none, fun _ => none⟩, fun _ => false, 0, 0xFFFF800100000000⟩
  pt := bootPages 30
  pgd := fun _ => 0

def answers : Answers := ⟨some 0, true, some⟩

theorem bootPages_booted (n : Nat) : Booted { bootSystem with pt := bootPages n } := by
  refine ⟨⟨0x100, rfl⟩, (by decide : 0x100000 + 65536 * 4096 ≤ 0x10000000000000), fun a ha hf => ?_⟩
  obtain ⟨virt, hv⟩ := ha
  obtain ⟨i, -, hi, hpage⟩ := hf
  have ha : a = pml4Slot 0x100000 virt := List.mem_singleton.1 hv
  have hi' : 1 ≤ i := (of_decide_eq_true hi).1
  have hidx : pml4Idx virt < 512 := Nat.mod_lt _ (by decide)
  have hbase : (bootPages n).bitmapBase = 0x100000 := rfl
  have hpage : alignDown a pageSize = (bootPages n).bitmapBase + i * pageSize := hpage
  rw [ha, hbase] at hpage
  unfold pml4Slot slot alignDown pageSize at hpage
  omega

theorem bootSystem_booted : Booted bootSystem := bootPages_booted 30

/-- Four bytes of code at `0x400000`. -/
def codeFile : List UInt8 := elfFile [⟨1, 5, 120, 0x400000, 4, 4⟩] [0x0F, 0x05, 0xEB, 0xFE]

theorem exec_kept_of_user_codeFile : ∃ r s', doExecve codeFile bootSystem answers = (r, s') ∧ KernelKept bootSystem s' := by
  rcases h : doExecve codeFile bootSystem answers with ⟨r, s'⟩
  refine ⟨r, s', rfl, exec_kept_of_user codeFile bootSystem s' answers r bootSystem_booted (fun k s₁ _ => ⟨?_, ?_⟩) h⟩
  · exact fun h => absurd h (by decide)
  · rintro - h hh
    have hphdrs : ∀ h ∈ elfHeaders codeFile, ∀ p ∈ h.2, (elfSegment p h.1.loadBias).InUser := by decide +kernel
    exact segmentsUser_of_inUser fun p hp _ => hphdrs h hh p hp

theorem eq_zero_of_fst {r : Int × System} (h : r.1 = 0) : r = (0, r.2) := Prod.ext h rfl

/-- A page of zeros at `0xFFFFFFFF80200000`. -/
def kernelFile : List UInt8 := elfFile [⟨1, 6, 0, 0xFFFFFFFF80200000, 0, 0x1000⟩] []

/-- **A segment with bit 63 set**: the file is loaded, and the kernel's tables have a new entry. -/
theorem not_kept_kernelFile : Booted bootSystem ∧
    ∃ s', doExecve kernelFile bootSystem answers = (0, s') ∧ ¬KernelKept bootSystem s' := by
  have h := eq_zero_of_fst (r := doExecve kernelFile bootSystem answers) (by decide +kernel)
  refine ⟨bootSystem_booted, _, h, fun hk => ?_⟩
  have hentry : KernelEntry bootSystem.pt (pml4Slot 0x100000 0xFFFFFFFF80200000) :=
    ⟨0xFFFFFFFF80200000, by decide +kernel⟩
  exact absurd (hk.entries _ hentry) (by decide +kernel)

end Exec
end Pico
