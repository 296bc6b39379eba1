import Picomimi.PageFault
import Picomimi.PagingMap
/-!
# StackGrowth — `handle_stack_growth`, all or nothing

`handle_stack_growth` moves the start of the stack area down to the page of the fault before it looks for a page, compares
with no other area, and maps that one page only; the pages it skips are left to the demand-paging branch of
`do_page_fault`.  `growth_iff` says when nothing of that shows: a page is found, no area lies in the way, and a fault on a
skipped page will be resolved with the permissions of the area.
-/
namespace Pico
namespace AddrSpace

open Lib Paging

/-! ## What an entry grants -/

/-- A page the user may read: a present one with `PTE_USER`. -/
def Readable (e : Nat) : Prop := Present e ∧ e / pteUser % 2 = 1

instance (e : Nat) : Decidable (Readable e) := inferInstanceAs (Decidable (_ ∧ _))

/-- **An entry grants what the `flags` permit**, no more and no less. -/
structure Conforms (e flags : Nat) : Prop where
  read : Readable e ↔ Mm.has flags Mm.vmRead = true
  write : Writable e ↔ Mm.has flags Mm.vmWrite = true
  exec : ¬NoExec e ↔ Mm.has flags Mm.vmExec = true

/-! ## What growth should do -/

/-- The stack-growth path of `do_page_fault`: a user-mode fault at an address that `find_vma` finds no area for. -/
structure GrowthPath (s : System) (k : Nat) (mm : Mm.MmStruct) (faultAddr : Nat) : Prop where
  proc : s.vm.mms k = some mm
  low : 0x1000 ≤ faultAddr
  outside : ∀ i, Mm.findVma s.vm mm faultAddr = some i → faultAddr < (s.vm.vmas i).start ∨ (s.vm.vmas i).endAddr ≤ faultAddr

/-- **A later fault on the page will be resolved** with the permissions of the area `i`: in every state with these areas in
which memory is found for it. -/
def WillResolve (vm : Mm.State) (mm : Mm.MmStruct) (k i pg : Nat) : Prop :=
  ∀ (t : System) (a : Nat) (write : Bool), t.vm = vm → Spaces t.pt (Root t) → a / pageSize = pg / pageSize →
    PageFound t mm k a false →
    ∃ t', doPageFault t k a false write true = some (0, t') ∧ Present (leaf t'.pt (t'.pgd k) a) ∧
      Conforms (leaf t'.pt (t'.pgd k) a) (vm.vmas i).flags

/-- The stack area `i`, grown to the page of the fault. -/
structure Grown (s s' : System) (k : Nat) (mm : Mm.MmStruct) (faultAddr i : Nat) : Prop where
  mem : i ∈ s.vm.nodes mm
  stack : Mm.has (s.vm.vmas i).vmFlags (Mm.vmGrowsDown ||| Mm.vmStack) = true
  above : faultAddr < (s.vm.vmas i).start
  start : (s'.vm.vmas i).start = alignDown faultAddr pageSize
  disjoint : ∀ j ∈ s'.vm.nodes mm, j ≠ i →
    (s'.vm.vmas j).endAddr ≤ (s'.vm.vmas i).start ∨ (s'.vm.vmas i).endAddr ≤ (s'.vm.vmas j).start
  pages : ∀ pg, pageSize ∣ pg → alignDown faultAddr pageSize ≤ pg → pg < (s.vm.vmas i).start →
    Present (leaf s'.pt (s'.pgd k) pg) ∨ WillResolve s'.vm mm k i pg

/-- **Stack growth, all or nothing**: a failure leaves the areas and the page tables as they were. -/
structure AllOrNothing (s s' : System) (k : Nat) (mm : Mm.MmStruct) (faultAddr : Nat) (r : Int) : Prop where
  failed : r ≠ 0 → s'.vm = s.vm ∧ s'.pt.mem = s.pt.mem
  grown : r = 0 → ∃ i, Grown s s' k mm faultAddr i

/-! ## When it does -/

/-- **Demand paging gives a page of the area what the area permits**: `vm_flags` let the fault through, agree with `flags` on
writing, and `flags` permit what the handler always grants. -/
structure DemandOk (v : Mm.Vma) : Prop where
  asked : Mm.has v.vmFlags Mm.vmRead = true ∨ Mm.has v.vmFlags Mm.vmExec = true
  read : Mm.has v.flags Mm.vmRead = true
  write : Mm.has v.vmFlags Mm.vmWrite = true ↔ Mm.has v.flags Mm.vmWrite = true
  exec : Mm.has v.flags Mm.vmExec = true

/-- The pages between the old start and the page of the fault are there already, and the tables for that one are found. -/
structure NoneSkipped (s : System) (k faultAddr start : Nat) : Prop where
  tables : (obtainPt (allocZeroPage (onCpu s k)).2 (s.pgd k) (alignDown faultAddr pageSize)).1.isSome = true
  mapped : ∀ pg, pageSize ∣ pg → alignDown faultAddr pageSize < pg → pg < start → Present (leaf s.pt (s.pgd k) pg)

/-- **What the stack area must find to grow.** -/
structure GrowthOk (s : System) (k : Nat) (mm : Mm.MmStruct) (faultAddr i : Nat) : Prop where
  page : (allocZeroPage (onCpu s k)).1 ≠ 0
  apart : Mm.Apart (s.vm.areas mm) (alignDown faultAddr pageSize) (s.vm.vmas i).start
  skipped : DemandOk (s.vm.vmas i) ∨ NoneSkipped s k faultAddr (s.vm.vmas i).start

variable {s s' : System} {k i pg faultAddr : Nat} {mm : Mm.MmStruct} {vm : Mm.State} {pt pt' : State} {v : Mm.Vma}

theorem setVma_self (vm : Mm.State) (i : Nat) (v : Mm.Vma) : (vm.setVma i v).vmas i = v := Function.update_self _ _ _

/-! ## The entry of a demand-paged page -/

theorem conforms_pteFor {phys : Nat} (hlt : phys < 0x10000000000000) (v : Mm.Vma) :
    Conforms (pteFor phys (pteFlagsForVma v)) v.flags ↔
      Mm.has v.flags Mm.vmRead = true ∧ (Mm.has v.vmFlags Mm.vmWrite = true ↔ Mm.has v.flags Mm.vmWrite = true) ∧
        Mm.has v.flags Mm.vmExec = true := by
  obtain ⟨hw, hx⟩ := pteFlagsForVma_spec v
  have hread : Readable (pteFor phys (pteFlagsForVma v)) := by
    refine ⟨present_pteFor _ _, ?_⟩
    have hbit : (pteFor phys (pteFlagsForVma v)).testBit 2 = true := by
      rw [testBit_pteFor _ _ 2 (by decide)]
      unfold pteFlagsForVma
      cases Mm.has v.vmFlags Mm.vmWrite <;> decide
    rw [Nat.testBit_eq_decide_div_mod_eq, decide_eq_true_iff] at hbit
    exact hbit
  constructor
  · rintro ⟨h1, h2, h3⟩
    rw [writable_pteFor, hw] at h2
    rw [noExec_pteFor _ hlt] at h3
    exact ⟨h1.1 hread, h2, h3.1 hx⟩
  · rintro ⟨h1, h2, h3⟩
    refine ⟨iff_of_true hread h1, ?_, ?_⟩
    · rw [writable_pteFor, hw]
      exact h2
    · rw [noExec_pteFor _ hlt]
      exact iff_of_true hx h3

/-! ## Later faults -/

/-- A not-present fault in the area `i` goes by its `vm_flags`. -/
theorem doPageFault_demand {a : Nat} {write : Bool} (hk : s.vm.mms k = some mm) (hlow : 0x1000 ≤ a)
    (hf : Mm.findVma s.vm mm a = some i) (hin : (s.vm.vmas i).start ≤ a ∧ a < (s.vm.vmas i).endAddr) :
    doPageFault s k a false write true =
      if Mm.has (s.vm.vmas i).vmFlags Mm.vmRead = false ∧ Mm.has (s.vm.vmas i).vmFlags Mm.vmExec = false then some (-1, s)
      else some (handleAnonFault s k i a) := by
  have hcheck : ¬(true = false ∨ a < 0x1000) := by
    rintro (hc | hc)
    · cases hc
    · omega
  have hout : ¬(a < (s.vm.vmas i).start ∨ (s.vm.vmas i).endAddr ≤ a) := by omega
  unfold doPageFault
  rw [if_neg hcheck, hk]
  dsimp only
  rw [hf]
  dsimp only
  rw [if_neg hout]
  simp only [Bool.false_eq_true, false_and, if_false]

/-- The entry demand paging makes. -/
theorem handleAnonFault_leaf {a : Nat} (h : Spaces s.pt (Root s)) (hk : s.vm.mms k = some mm) (ha : a < userTop)
    (hlow : 0x1000 ≤ a) (hp : PageFound s mm k a false) :
    ∃ pt' phys, handleAnonFault s k i a = (0, { s with pt := pt' }) ∧ phys < 0x10000000000000 ∧
      leaf pt' (s.pgd k) a = pteFor phys (pteFlagsForVma (s.vm.vmas i)) := by
  obtain ⟨-, hsp, hc⟩ := onCpu_spec (k := k) h ⟨k, hk ▸ rfl, rfl⟩
  unfold handleAnonFault
  rcases hm : mapZeroPage (onCpu s k) (alignDown a pageSize) (pteFlagsForVma (s.vm.vmas i)) with ⟨r, pt'⟩
  rcases (mapZeroPage_spec hsp hc ha hlow hm).2 with ⟨-, h0⟩ | ⟨rfl, -, phys, hlt, hl⟩
  · exact absurd h0 hp.page
  · rw [if_pos hp.tables] at hl
    exact ⟨pt', phys, rfl, hlt, hl⟩

/-- The areas of `vm` over an empty root, with free pages. -/
def emptySystem (vm : Mm.State) : System := ⟨vm, emptyRoot, fun _ => 0x100000⟩

theorem emptyRoot_space : Space emptyRoot 0x100000 := by
  have hfree : ¬emptyRoot.Free 0x100000 := emptyRoot_whole.tree.used [] _ Layout.path_nil rfl
  refine ⟨Layout.tree_empty (fun _ _ => rfl) ⟨0x100, rfl⟩ hfree, fun i p hp => ?_, ⟨0x100, rfl⟩,
    (by decide : 0x100000 + 65536 * 4096 ≤ 0x10000000000000)⟩
  rw [Layout.entryAt_empty (fun _ _ => rfl) hp.entry]
  decide

theorem emptySystem_spaces (vm : Mm.State) : Spaces (emptySystem vm).pt (Root (emptySystem vm)) := by
  have hroot : ∀ r, Root (emptySystem vm) r → r = 0x100000 := by
    rintro r ⟨k, -, rfl⟩
    rfl
  refine ⟨fun r hr => ?_, fun r r' hr hr' hne => ?_, emptyRoot_space.base, emptyRoot_space.top⟩
  · rw [hroot r hr]
    exact emptyRoot_space
  · exact absurd ((hroot r hr).trans (hroot r' hr').symm) hne

theorem emptySystem_found (vm : Mm.State) {a : Nat} (ha : a < userTop) : PageFound (emptySystem vm) mm k a false := by
  have hpage : (allocZeroPage emptyRoot).1 ≠ 0 := by decide +kernel
  have htables : CanAllocate 3 (allocZeroPage emptyRoot).2 :=
    .page (by decide +kernel) (.page (by decide +kernel) (.page (by decide +kernel) (.none _)))
  have hspace : Space (allocZeroPage emptyRoot).2 0x100000 := by
    rcases allocZeroPage_cases emptyRoot_space rfl with ⟨hc, -⟩ | hn
    · exact absurd hc hpage
    · exact (emptyRoot_space.filled hn).1.space emptyRoot_space
  refine ⟨hpage, ?_, fun _ hc => by cases hc⟩
  exact hspace.tables.obtainPt_some (pml4Idx_of_user (alignDown_user ha)) (htables.mono (missing_le _ _ _))

/-- **A page in the area `i` alone will be resolved exactly when demand paging grants what the area permits.** -/
theorem willResolve_iff (hk : vm.mms k = some mm) (hpg : pg < userTop) (hlow : 0x1000 ≤ pg)
    (hfind : ∀ a, a / pageSize = pg / pageSize →
      Mm.findVma vm mm a = some i ∧ (vm.vmas i).start ≤ a ∧ a < (vm.vmas i).endAddr) :
    WillResolve vm mm k i pg ↔ DemandOk (vm.vmas i) := by
  constructor
  · intro h
    obtain ⟨hf, hin⟩ := hfind pg rfl
    have hfound : PageFound (emptySystem vm) mm k pg false := emptySystem_found vm hpg
    obtain ⟨t', hfault, -, hconf⟩ := h (emptySystem vm) pg false rfl (emptySystem_spaces vm) rfl hfound
    rw [doPageFault_demand (s := emptySystem vm) hk hlow hf hin] at hfault
    split at hfault
    · cases hfault
    · rename_i hasked
      obtain ⟨pt', phys, hcall, hlt, hl⟩ := handleAnonFault_leaf (i := i) (emptySystem_spaces vm) hk hpg hlow hfound
      rw [hcall] at hfault
      cases hfault
      have hconf' : Conforms (leaf pt' ((emptySystem vm).pgd k) pg) (vm.vmas i).flags := hconf
      rw [hl] at hconf'
      obtain ⟨h1, h2, h3⟩ := (conforms_pteFor hlt (vm.vmas i)).1 hconf'
      refine ⟨?_, h1, h2, h3⟩
      by_contra hno
      have hneither : Mm.has (vm.vmas i).vmFlags Mm.vmRead = false ∧ Mm.has (vm.vmas i).vmFlags Mm.vmExec = false := by
        simpa [not_or] using hno
      exact hasked hneither
  · rintro ⟨h0, h1, h2, h3⟩ t a write rfl hsp ha hfound
    obtain ⟨hf, hin⟩ := hfind a ha
    have ha' : a < userTop ∧ 0x1000 ≤ a := by
      unfold pageSize at ha
      unfold userTop at hpg ⊢
      omega
    obtain ⟨pt', phys, hcall, hlt, hl⟩ := handleAnonFault_leaf (i := i) hsp hk ha'.1 ha'.2 hfound
    refine ⟨{ t with pt := pt' }, ?_, ?_, ?_⟩
    · rw [doPageFault_demand hk ha'.2 hf hin, if_neg, hcall]
      rintro ⟨hr, hx⟩
      rcases h0 with h0 | h0
      · rw [hr] at h0
        cases h0
      · rw [hx] at h0
        cases h0
    · show Present (leaf pt' (t.pgd k) a)
      rw [hl]
      exact present_pteFor _ _
    · show Conforms (leaf pt' (t.pgd k) a) _
      rw [hl]
      exact (conforms_pteFor hlt _).2 ⟨h1, h2, h3⟩

/-! ## The grown area -/

section Grow

variable (ht : Mm.Tidy (vm.areas mm)) (hi : i ∈ vm.nodes mm) {page : Nat}

include ht hi

/-- **The grown area meets no other exactly when none lies in the way.** -/
theorem grown_disjoint_iff :
    (∀ j ∈ vm.nodes mm, j ≠ i → (vm.vmas j).endAddr ≤ page ∨ (vm.vmas i).endAddr ≤ (vm.vmas j).start) ↔
      Mm.Apart (vm.areas mm) page (vm.vmas i).start := by
  have hrange : ∀ j ∈ vm.nodes mm, Mm.RangeWf (vm.vmas j) := fun j hj => ht.range _ (List.mem_map_of_mem hj)
  have hlt := (hrange i hi).lt
  constructor
  · intro h w hw
    obtain ⟨j, hj, rfl⟩ := List.mem_map.1 hw
    by_cases hji : j = i
    · rw [hji]
      exact .inr (Nat.le_refl _)
    · rcases h j hj hji with h1 | h1
      · exact .inl h1
      · exact .inr (Nat.le_of_lt (Nat.lt_of_lt_of_le hlt h1))
  · intro h j hj hji
    have hjlt := (hrange j hj).lt
    rcases h _ (List.mem_map_of_mem hj) with h1 | h1
    · exact .inl h1
    · -- the two areas were apart before
      rcases Mm.Tidy.disjoint ht hi hj hji with h2 | h2
      · omega
      · exact .inr h2

/-- **`find_vma` then answers the grown area** for every address it has gained. -/
theorem findVma_grown {v : Mm.Vma} (hap : Mm.Apart (vm.areas mm) page (vm.vmas i).start) (hs : v.start = page)
    (he : v.endAddr = (vm.vmas i).endAddr) {a : Nat} (h1 : page ≤ a) (h2 : a < (vm.vmas i).start) :
    Mm.findVma (vm.setVma i v) mm a = some i ∧ v.start ≤ a ∧ a < v.endAddr := by
  have hval : (vm.setVma i v).vmas i = v := setVma_self _ _ _
  have hlt := (ht.range _ (List.mem_map_of_mem hi)).lt
  have hin : v.start ≤ a ∧ a < v.endAddr := by omega
  obtain ⟨j, hj, hja⟩ := @Mm.findVmaFrom_of_mem (vm.setVma i v) a (vm.nodes mm) none ⟨i, hi, by rw [hval]; exact hin⟩
  have hji : j = i := by
    by_contra hne
    have hother : (vm.setVma i v).vmas j = vm.vmas j := Function.update_of_ne hne _ _
    rw [hother] at hja
    have hmem : j ∈ vm.nodes mm := (Mm.findVmaFrom_mem hj).resolve_left (Option.some_ne_none j).symm
    rcases hap _ (List.mem_map_of_mem hmem) with h | h <;> omega
  rw [hji] at hj
  exact ⟨hj, hin⟩

end Grow

/-- **The pages that are mapped after a zeroed page was**: that one, if its tables were found, and those that were. -/
theorem present_mapped {root phys : Nat} {s₁ : State} (flags : Nat) (h : Space pt root) (hc : readCr3 pt = root)
    (hv : faultAddr < userTop) (h0 : 0x1000 ≤ faultAddr) (ha : allocZeroPage pt = (phys + 1, s₁)) {w : Nat} (hw : w < userTop) :
    Present (leaf (vmmMapPage s₁ (alignDown faultAddr pageSize) (phys + 1) flags) root w) ↔
      if w / pageSize = faultAddr / pageSize then
        (obtainPt s₁ root (alignDown faultAddr pageSize)).1.isSome = true
      else Present (leaf pt root w) := by
  have hn := (allocZeroPage_cases h ha).resolve_left fun hc => Nat.succ_ne_zero phys hc.1
  obtain ⟨hw1, hl1⟩ := h.filled hn
  have hp := alignDown_user hv
  rw [vmmMapPage_user hp, hw1.readCr3 hc, alignDown_div faultAddr]
  obtain ⟨-, hmap⟩ := mapInPgd_spec (phys + 1) flags (hw1.space h) hp (alignDown_ne_zero h0)
  split at hmap
  · rename_i ho
    rw [hmap w hw]
    by_cases hpg : w / pageSize = alignDown faultAddr pageSize / pageSize
    · rw [if_pos hpg, if_pos hpg]
      exact iff_of_true (present_pteFor _ _) ho
    · rw [if_neg hpg, if_neg hpg, hl1 w hw]
  · rename_i ho
    by_cases hpg : w / pageSize = alignDown faultAddr pageSize / pageSize
    · rw [if_pos hpg, ← leaf_congr _ _ hw hp hpg.symm, hmap.2]
      exact iff_of_false not_present_zero ho
    · rw [if_neg hpg, hmap.1 w hw, hl1 w hw]

/-! ## The path -/

/-- **What the path does** when there is a stack area to grow: its start moves, and a page is mapped if one is found. -/
theorem handleStackGrowth_some {r : Int} (hs : Mm.stackVma s.vm mm faultAddr = some i)
    (hcall : handleStackGrowth s k mm faultAddr = (r, s')) :
    ∃ v : Mm.Vma, v = { s.vm.vmas i with start := alignDown faultAddr pageSize } ∧ s'.vm = s.vm.setVma i v ∧ s'.pgd = s.pgd ∧
      ((r = -1 ∧ (allocZeroPage (onCpu s k)).1 = 0) ∨
        (r = 0 ∧ ∃ phys s₁, allocZeroPage (onCpu s k) = (phys + 1, s₁) ∧
          s'.pt = vmmMapPage s₁ (alignDown faultAddr pageSize) (phys + 1) (pteFlagsForVma v))) := by
  have hval : (s.vm.setVma i { s.vm.vmas i with start := alignDown faultAddr pageSize }).vmas i =
      { s.vm.vmas i with start := alignDown faultAddr pageSize } := setVma_self _ _ _
  unfold handleStackGrowth mapZeroPage at hcall
  rw [hs] at hcall
  dsimp only at hcall
  rw [hval] at hcall
  rcases ha : allocZeroPage (onCpu s k) with ⟨_ | phys, s₁⟩
  · rw [ha] at hcall
    cases hcall
    exact ⟨_, rfl, rfl, rfl, .inl ⟨rfl, rfl⟩⟩
  · rw [ha] at hcall
    cases hcall
    exact ⟨_, rfl, rfl, rfl, .inr ⟨rfl, phys, s₁, rfl, rfl⟩⟩

/-- The window of the stack area. -/
theorem stackVma_some (hs : Mm.stackVma s.vm mm faultAddr = some i) : i ∈ s.vm.nodes mm ∧
    Mm.has (s.vm.vmas i).vmFlags (Mm.vmGrowsDown ||| Mm.vmStack) = true ∧ faultAddr < (s.vm.vmas i).start := by
  have hp := List.find?_some hs
  simp only [Bool.decide_and, Bool.and_eq_true, decide_eq_true_eq] at hp
  exact ⟨List.mem_of_find?_eq_some hs, hp.1, hp.2.1⟩

/-- `do_page_fault` takes it. -/
theorem doPageFault_growth (hp : GrowthPath s k mm faultAddr) (present write : Bool) :
    doPageFault s k faultAddr present write true = some (handleStackGrowth s k mm faultAddr) := by
  have hcheck : ¬(true = false ∨ faultAddr < 0x1000) := by
    rintro (hc | hc)
    · cases hc
    · exact absurd hp.low (Nat.not_le.2 hc)
  unfold doPageFault
  rw [if_neg hcheck, hp.proc]
  dsimp only
  cases hf : Mm.findVma s.vm mm faultAddr with
  | none => rfl
  | some i => exact if_pos (hp.outside i hf)

theorem DemandOk.congr {w : Mm.Vma} (h : DemandOk v) (hf : w.flags = v.flags) (hvf : w.vmFlags = v.vmFlags) : DemandOk w := by
  obtain ⟨h0, h1, h2, h3⟩ := h
  rw [← hf] at h1 h2 h3
  rw [← hvf] at h0 h2
  exact ⟨h0, h1, h2, h3⟩

/-- **The pages of the grown area**: those between the new and the old start are there, or a later fault will be resolved. -/
theorem grown_pages_iff {phys : Nat} {s₁ : State} (h : Spaces s.pt (Root s)) (ht : Mm.Tidy (s.vm.areas mm))
    (hu : UserAreas s k) (hp : GrowthPath s k mm faultAddr) (hi : i ∈ s.vm.nodes mm)
    (hap : Mm.Apart (s.vm.areas mm) (alignDown faultAddr pageSize) (s.vm.vmas i).start) (hbelow : faultAddr < (s.vm.vmas i).start)
    (hv : v = { s.vm.vmas i with start := alignDown faultAddr pageSize }) (ha : allocZeroPage (onCpu s k) = (phys + 1, s₁)) :
    (∀ pg, pageSize ∣ pg → alignDown faultAddr pageSize ≤ pg → pg < (s.vm.vmas i).start →
      Present (leaf (vmmMapPage s₁ (alignDown faultAddr pageSize) (phys + 1) (pteFlagsForVma v)) (s.pgd k) pg) ∨
        WillResolve (s.vm.setVma i v) mm k i pg) ↔
      DemandOk (s.vm.vmas i) ∨ NoneSkipped s k faultAddr (s.vm.vmas i).start := by
  obtain ⟨-, hsp, hc⟩ := onCpu_spec (k := k) h ⟨k, hp.proc ▸ rfl, rfl⟩
  have hmem : s.vm.vmas i ∈ s.vm.areas mm := List.mem_map_of_mem hi
  have htop : (s.vm.vmas i).start < userTop := Nat.lt_of_lt_of_le (ht.range _ hmem).lt (hu mm hp.proc _ hmem)
  have hval : (s.vm.setVma i v).vmas i = v := setVma_self _ _ _
  have hpage0 : 0x1000 ≤ alignDown faultAddr pageSize := by
    have := hp.low
    unfold alignDown pageSize
    omega
  -- a page between is resolved later exactly when demand paging does right by the area
  have hlater : ∀ pg, pageSize ∣ pg → alignDown faultAddr pageSize ≤ pg → pg < (s.vm.vmas i).start →
      (WillResolve (s.vm.setVma i v) mm k i pg ↔ DemandOk (s.vm.vmas i)) := by
    intro pg hd h1 h2
    have hdemand : DemandOk v ↔ DemandOk (s.vm.vmas i) := by
      rw [hv]
      exact ⟨fun hdem => hdem.congr rfl rfl, fun hdem => hdem.congr rfl rfl⟩
    have hres : WillResolve (s.vm.setVma i v) mm k i pg ↔ DemandOk ((s.vm.setVma i v).vmas i) := by
      refine willResolve_iff hp.proc (Nat.lt_trans h2 htop) (Nat.le_trans hpage0 h1) fun a hapg => ?_
      rw [hval]
      refine findVma_grown ht hi hap (by rw [hv]) (by rw [hv]) ?_ ?_
      · obtain ⟨q, rfl⟩ := hd
        unfold pageSize at *
        omega
      · obtain ⟨q, rfl⟩ := hd
        obtain ⟨b, hb⟩ := (ht.range _ hmem).dvd_start
        unfold Mm.pageSize at hb
        unfold pageSize at *
        omega
    rw [hval] at hres
    exact hres.trans hdemand
  have hthere := fun {w : Nat} (hw : w < userTop) =>
    present_mapped (pteFlagsForVma v) hsp hc (Nat.lt_trans hbelow htop) hp.low ha hw
  constructor
  · intro hall
    by_cases hdem : DemandOk (s.vm.vmas i)
    · exact .inl hdem
    · have hpres : ∀ pg, pageSize ∣ pg → alignDown faultAddr pageSize ≤ pg → pg < (s.vm.vmas i).start →
          Present (leaf (vmmMapPage s₁ (alignDown faultAddr pageSize) (phys + 1) (pteFlagsForVma v)) (s.pgd k) pg) :=
        fun pg hd h1 h2 => (hall pg hd h1 h2).resolve_right fun hc => hdem ((hlater pg hd h1 h2).1 hc)
      refine .inr ⟨?_, fun pg hd h1 h2 => ?_⟩
      · have hfirst := hpres (alignDown faultAddr pageSize) (dvd_alignDown _ _) (Nat.le_refl _)
          (Nat.lt_of_le_of_lt (alignDown_le _ _) hbelow)
        rw [hthere (alignDown_user (Nat.lt_trans hbelow htop)), if_pos (alignDown_div faultAddr).symm] at hfirst
        rw [ha]
        exact hfirst
      · have hpg := hpres pg hd (Nat.le_of_lt h1) h2
        rw [hthere (Nat.lt_trans h2 htop), if_neg] at hpg
        · exact hpg
        · obtain ⟨q, rfl⟩ := hd
          unfold alignDown at h1
          unfold pageSize at *
          omega
  · rintro (hdem | ⟨htab, hmapped⟩) pg hd h1 h2
    · exact .inr ((hlater pg hd h1 h2).2 hdem)
    · left
      rw [hthere (Nat.lt_trans h2 htop)]
      split
      · rw [ha] at htab
        exact htab
      · rename_i hne
        refine hmapped pg hd (Nat.lt_of_le_of_ne h1 fun hc => hne ?_) h2
        rw [← hc]
        exact (alignDown_div faultAddr).symm

/-- **Stack growth is all or nothing exactly when the stack area finds a page, no area in the way, and no page that demand
paging would treat otherwise than the area says.** -/
theorem growth_iff (s s' : System) (k faultAddr : Nat) (mm : Mm.MmStruct) (r : Int) (h : Spaces s.pt (Root s))
    (ht : Mm.Tidy (s.vm.areas mm)) (hu : UserAreas s k) (hp : GrowthPath s k mm faultAddr)
    (hcall : handleStackGrowth s k mm faultAddr = (r, s')) :
    AllOrNothing s s' k mm faultAddr r ↔ ∀ i ∈ Mm.stackVma s.vm mm faultAddr, GrowthOk s k mm faultAddr i := by
  cases hs : Mm.stackVma s.vm mm faultAddr with
  | none =>
    unfold handleStackGrowth at hcall
    rw [hs] at hcall
    cases hcall
    exact iff_of_true ⟨fun _ => ⟨rfl, rfl⟩, fun hc => by cases hc⟩ fun i hi => by cases hi
  | some i =>
    obtain ⟨v, hv, hvm, hpgd, hres⟩ := handleStackGrowth_some hs hcall
    obtain ⟨hi, hstack, habove⟩ := stackVma_some hs
    have hval : s'.vm.vmas i = v := by
      rw [hvm, setVma_self]
    have hother : ∀ j, j ≠ i → s'.vm.vmas j = s.vm.vmas j := by
      intro j hj
      rw [hvm]
      exact Function.update_of_ne hj _ _
    have hnodes : s'.vm.nodes mm = s.vm.nodes mm := by rw [hvm]; rfl
    have hpage : alignDown faultAddr pageSize < (s.vm.vmas i).start := Nat.lt_of_le_of_lt (alignDown_le _ _) habove
    have hstart : v.start = alignDown faultAddr pageSize := by rw [hv]
    have hend : v.endAddr = (s.vm.vmas i).endAddr := by rw [hv]
    have hall : (∀ j ∈ some i, GrowthOk s k mm faultAddr j) ↔ GrowthOk s k mm faultAddr i := by simp
    rw [hall]
    rcases hres with ⟨rfl, h0⟩ | ⟨rfl, phys, s₁, ha, hpt⟩
    · -- the start has moved, and no page was found
      refine iff_of_false (fun hc => ?_) fun hc => hc.page h0
      have hsame := (hc.failed (by decide)).1
      rw [hsame] at hval
      rw [← hval] at hstart
      omega
    · have hdis : (∀ j ∈ s'.vm.nodes mm, j ≠ i →
          (s'.vm.vmas j).endAddr ≤ (s'.vm.vmas i).start ∨ (s'.vm.vmas i).endAddr ≤ (s'.vm.vmas j).start) ↔
            Mm.Apart (s.vm.areas mm) (alignDown faultAddr pageSize) (s.vm.vmas i).start := by
        rw [← grown_disjoint_iff ht hi, hnodes, hval, hstart, hend]
        refine forall_congr' fun j => forall_congr' fun hj => forall_congr' fun hji => ?_
        rw [hother j hji]
      have hpages : Mm.Apart (s.vm.areas mm) (alignDown faultAddr pageSize) (s.vm.vmas i).start →
          ((∀ pg, pageSize ∣ pg → alignDown faultAddr pageSize ≤ pg → pg < (s.vm.vmas i).start →
            Present (leaf s'.pt (s'.pgd k) pg) ∨ WillResolve s'.vm mm k i pg) ↔
              DemandOk (s.vm.vmas i) ∨ NoneSkipped s k faultAddr (s.vm.vmas i).start) := by
        intro hap
        rw [hvm, hpt, hpgd]
        exact grown_pages_iff h ht hu hp hi hap habove hv ha
      have hone : ∀ j, Grown s s' k mm faultAddr j → j = i := by
        intro j hj
        by_contra hji
        have h1 := hj.start
        rw [hother j hji] at h1
        have h2 := hj.above
        have h3 := alignDown_le faultAddr pageSize
        omega
      constructor
      · intro hg
        obtain ⟨j, hj⟩ := hg.grown rfl
        obtain rfl := hone j hj
        have hap := hdis.1 hj.disjoint
        refine ⟨?_, hap, (hpages hap).1 hj.pages⟩
        rw [ha]
        exact Nat.succ_ne_zero phys
      · intro hok
        refine ⟨fun hc => absurd rfl hc, fun _ => ⟨i, hi, hstack, habove, ?_, hdis.2 hok.apart, (hpages hok.apart).2 hok.skipped⟩⟩
        rw [hval, hstart]

/-- A process with one area. -/
def oneMm : Mm.MmStruct := ⟨some 0, 0x401000, 0x401000, 0x7FFFFFFFE000, 1⟩

def oneArea (v : Mm.Vma) : Mm.State :=
  { mms := fun k => if k = 0 then some oneMm else none
    vmas := fun _ => v
    links := ⟨fun _ => none, fun _ => none⟩
    live := fun i => i == 0
    bound := 1
    kmapPtr := 0xFFFF800100000000 }

theorem oneArea_tidy (hv : Mm.RangeWf v) : Mm.Tidy ((oneArea v).areas oneMm) := by
  have hareas : (oneArea v).areas oneMm = [v] := rfl
  rw [hareas, Mm.tidy_cons]
  exact ⟨hv, Mm.tidy_nil, List.forall_mem_nil _⟩

theorem oneArea_user (pt : State) (root : Nat) (hv : v.endAddr ≤ userTop) : UserAreas ⟨oneArea v, pt, fun _ => root⟩ 0 := by
  intro mm hmm w hw
  cases hmm
  cases List.mem_singleton.1 hw
  exact hv

/-- A stack of 32 pages. -/
def stackArea (flags vmFlags : Nat) : Mm.Vma := ⟨0x7FFFFFFDE000, 0x7FFFFFFFE000, flags, vmFlags, 0⟩

theorem stackArea_wf (flags vmFlags : Nat) : Mm.RangeWf (stackArea flags vmFlags) :=
  ⟨(by decide : 0x7FFFFFFDE000 < 0x7FFFFFFFE000), ⟨0x7FFFFFFDE, rfl⟩, ⟨0x7FFFFFFFE, rfl⟩,
    (by decide : 0x7FFFFFFFE000 < word64)⟩

theorem stackArea_path (flags vmFlags : Nat) :
    GrowthPath (emptySystem (oneArea (stackArea flags vmFlags))) 0 oneMm 0x7FFFFFFDC010 := by
  have hf : Mm.findVma (oneArea (stackArea flags vmFlags)) oneMm 0x7FFFFFFDC010 = some 0 := rfl
  refine ⟨rfl, by decide, fun i hi => .inl ?_⟩
  cases hf.symm.trans hi
  exact (by decide : 0x7FFFFFFDC010 < 0x7FFFFFFDE000)

/-- The areas of a stack from `mmap`: `PROT_READ | PROT_WRITE | PROT_EXEC` with `MAP_GROWSDOWN`. -/
def mmapStack : Mm.State := oneArea (stackArea (Mm.mmapFlags 7 Mm.mapGrowsDown) (Mm.mmapFlags 7 Mm.mapGrowsDown))

/-- The areas of a stack from the ELF loader. -/
def loaderStack : Mm.State := oneArea (stackArea (Mm.vmRead ||| Mm.vmWrite ||| Mm.vmGrowsDown) Mm.vmGrowsDown)

/-- A fault two pages below the stack. -/
theorem growth_iff_mmapStack :
    ∃ s', handleStackGrowth (emptySystem mmapStack) 0 oneMm 0x7FFFFFFDC010 = (0, s') ∧
      AllOrNothing (emptySystem mmapStack) s' 0 oneMm 0x7FFFFFFDC010 0 := by
  have hcall : handleStackGrowth (emptySystem mmapStack) 0 oneMm 0x7FFFFFFDC010 =
      (0, (handleStackGrowth (emptySystem mmapStack) 0 oneMm 0x7FFFFFFDC010).2) := Prod.ext (by decide +kernel) rfl
  have hu : UserAreas (emptySystem mmapStack) 0 := oneArea_user _ _ (by decide : 0x7FFFFFFFE000 ≤ 0x800000000000)
  refine ⟨_, hcall, (growth_iff _ _ 0 0x7FFFFFFDC010 oneMm 0 (emptySystem_spaces _) (oneArea_tidy (stackArea_wf _ _)) hu
    (stackArea_path _ _) hcall).2 fun i hi => ?_⟩
  have hs : Mm.stackVma mmapStack oneMm 0x7FFFFFFDC010 = some 0 := by decide +kernel
  cases hs.symm.trans hi
  exact ⟨by decide +kernel, by decide +kernel, .inl ⟨by decide, by decide, by decide, by decide⟩⟩

/-- The page between is not mapped, and a fault on it is refused. -/
theorem not_allOrNothing_loaderStack :
    ∃ s', doPageFault (emptySystem loaderStack) 0 0x7FFFFFFDC010 false true true = some (0, s') ∧
      ¬AllOrNothing (emptySystem loaderStack) s' 0 oneMm 0x7FFFFFFDC010 0 := by
  have hcall : handleStackGrowth (emptySystem loaderStack) 0 oneMm 0x7FFFFFFDC010 =
      (0, (handleStackGrowth (emptySystem loaderStack) 0 oneMm 0x7FFFFFFDC010).2) := Prod.ext (by decide +kernel) rfl
  have hs : Mm.stackVma loaderStack oneMm 0x7FFFFFFDC010 = some 0 := by decide +kernel
  have hap : Mm.Apart (loaderStack.areas oneMm) 0x7FFFFFFDC000 (loaderStack.vmas 0).start := by decide +kernel
  refine ⟨_, (doPageFault_growth (stackArea_path _ _) false true).trans (congrArg some hcall), fun h => ?_⟩
  obtain ⟨i, hg⟩ := h.grown rfl
  have hi : i = 0 := List.mem_singleton.1 hg.mem
  subst hi
  rcases hg.pages 0x7FFFFFFDD000 ⟨0x7FFFFFFDD, rfl⟩ (by decide) (by decide +kernel) with hpres | hlater
  · revert hpres
    decide +kernel
  · obtain ⟨v, hv, hvm, -⟩ := handleStackGrowth_some hs hcall
    have hval : (loaderStack.setVma 0 v).vmas 0 = v := setVma_self _ _ _
    have hfind : ∀ a, a / pageSize = 0x7FFFFFFDD000 / pageSize → Mm.findVma (loaderStack.setVma 0 v) oneMm a = some 0 ∧
        ((loaderStack.setVma 0 v).vmas 0).start ≤ a ∧ a < ((loaderStack.setVma 0 v).vmas 0).endAddr := by
      intro a ha
      rw [hval]
      refine findVma_grown (oneArea_tidy (stackArea_wf _ _)) hg.mem hap (by rw [hv]; rfl) (by rw [hv]; rfl) ?_ ?_
      · unfold pageSize at ha
        omega
      · show a < 0x7FFFFFFDE000
        unfold pageSize at ha
        omega
    rw [hvm] at hlater
    have hdem := ((willResolve_iff rfl (by decide) (by decide) hfind).1 hlater).asked
    rw [hval, hv] at hdem
    revert hdem
    decide

end AddrSpace
end Pico
