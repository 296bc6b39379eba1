import Picomimi.PagingSpaces
import Picomimi.VmaCopy
/-!
# AddrSpace — `mm_copy`

The areas are copied first (`Mm.copyVmas`), then page by page what the parent has mapped in them: a page for the child, the
contents, an entry with the parent's flags.  A page for which there is no memory, or no memory for a table, is passed over.
-/
namespace Pico
namespace AddrSpace

open Lib Paging

structure System where
  vm : Mm.State
  pt : Paging.State
  pgd : Nat → Nat        -- the root of each address space

/-- `for (pg = start; pg < end; pg += PAGE_SIZE)`. -/
def pagesOf (start endAddr : Nat) : List Nat :=
  (List.range ((endAddr - start + (pageSize - 1)) / pageSize)).map fun j => start + j * pageSize

/-- The words of a page, written through the kernel's alias. -/
def fillPage (s : State) (page : Nat) (words : Nat → Nat) : State :=
  { s with mem := fun a => if page ≤ a ∧ a < page + pageSize then words (a - page) else s.mem a }

/-- `memcpy` of a page. -/
def copyPage (s : State) (dst src : Nat) : State := fillPage s dst fun i => s.mem (src + i)

def pmmFreePage (s : State) (addr : Nat) : State :=
  if addr < s.bitmapBase then s
  else
    let page := (addr - s.bitmapBase) / pageSize
    if page < bitmapPages then { s with pageBitmap := Function.update s.pageBitmap page true } else s

/-- The flags `mm_copy` takes from an entry. -/
def pteFlags (srcPte : Nat) : Nat := srcPte &&& 0xFFF0000000000FFF

/-- One turn of the page loop of `mm_copy`. -/
def copyMapping (old child : Nat) (s : State) (pg : Nat) : State :=
  let srcPte := vmmPteForVirtIn s.mem old pg
  if ¬Present srcPte then s
  else
    match pmmAllocPage s with
    | (0, s) => s
    | (dst, s) => vmmMapPageInPgd (copyPage s dst (frameOf srcPte)) child pg dst (pteFlags srcPte)

/-- The pages the loop visits: the list of `old`, which the copies are not on. -/
def areaPages (s : System) (mm : Mm.MmStruct) : List Nat := (s.vm.areas mm).flatMap fun v => pagesOf v.start v.endAddr

/-- `mm_copy` of the address space `k`; `new` is where `mm_alloc` puts the `mm_struct`. -/
def mmCopy (s : System) (k : Nat) (new : Option Nat) (nodes : Nat → Option Nat) : Option Nat × System :=
  match s.vm.mms k, new with
  | some old, some j =>
    if (s.vm.mms j).isSome then (none, s)
    else
      match mmAllocPgd s.pt with
      | (0, pt) => (none, { s with pt := pt })
      | (pgd, pt) =>
        match Mm.copyVmas nodes s.vm.bound s.vm old.mmap none none with
        | (none, vm) => (none, ⟨vm, pmmFreePage pt pgd, s.pgd⟩)
        | (some head, vm) =>
          (some j,
            ⟨vm.setMm j ⟨head, old.startBrk, old.brk, old.startStack, 0⟩,
              (areaPages s old).foldl (copyMapping (s.pgd k) pgd) pt, Function.update s.pgd j pgd⟩)
  | _, _ => (none, s)

/-! ## What a snapshot is -/

/-- The low bits, which say what the user may do, and `PTE_NX`. -/
structure SamePerms (e e' : Nat) : Prop where
  low : e' % pageSize = e % pageSize
  noExec : NoExec e' ↔ NoExec e

/-- **The child's page**: it is mapped as the parent's was, has its contents, and the parent has it nowhere. -/
structure PageCopied (s s' : System) (k j p : Nat) : Prop where
  present : Present (leaf s'.pt (s'.pgd j) p)
  perms : SamePerms (leaf s.pt (s.pgd k) p) (leaf s'.pt (s'.pgd j) p)
  contents : ∀ i, i < pageSize →
    s'.pt.mem (frameOf (leaf s'.pt (s'.pgd j) p) + i) = s.pt.mem (frameOf (leaf s.pt (s.pgd k) p) + i)
  own : ∀ w, w < userTop → Present (leaf s.pt (s.pgd k) w) →
    frameOf (leaf s'.pt (s'.pgd j) p) ≠ frameOf (leaf s.pt (s.pgd k) w)

/-- **The child is a snapshot of the parent.** -/
structure Snapshot (s s' : System) (k j : Nat) : Prop where
  ranges : ∀ mm ∈ s.vm.mms k, ∃ mm' ∈ s'.vm.mms j,
    (s'.vm.areas mm').map (fun v => (v.start, v.endAddr)) = (s.vm.areas mm).map fun v => (v.start, v.endAddr)
  pages : ∀ mm ∈ s.vm.mms k, ∀ v ∈ s.vm.areas mm, Mm.has v.flags Mm.vmShared = false → ∀ p ∈ pagesOf v.start v.endAddr,
    Present (leaf s.pt (s.pgd k) p) → PageCopied s s' k j p
  only : ∀ mm ∈ s.vm.mms k, ∀ p, p < userTop → Present (leaf s'.pt (s'.pgd j) p) →
    Present (leaf s.pt (s.pgd k) p) ∧ ∃ q ∈ areaPages s mm, q / pageSize = p / pageSize

/-- **What a process is**: its list ends, its tables are its own, and the pages it has mapped are in use. -/
structure ProcOk (s : System) (k : Nat) : Prop where
  lists : ∀ mm ∈ s.vm.mms k, ∃ l, Mm.Listed s.vm mm l
  bound : ∀ i, s.vm.live i = true → i < s.vm.bound
  spaces : Spaces s.pt fun r => r = s.pgd k
  backed : ∀ w, w < userTop → Present (leaf s.pt (s.pgd k) w) → ¬s.pt.Free (frameOf (leaf s.pt (s.pgd k) w))

/-- The areas end in the user half. -/
def UserAreas (s : System) (k : Nat) : Prop := ∀ mm ∈ s.vm.mms k, ∀ v ∈ s.vm.areas mm, v.endAddr ≤ userTop

/-- A turn finds a page, and pages for the tables; page 0 is never mapped. -/
def TurnOk (s : State) (old child pg : Nat) : Prop :=
  pg ≠ 0 ∧ (pmmAllocPage s).1 ≠ 0 ∧
    (obtainPt (copyPage (pmmAllocPage s).2 (pmmAllocPage s).1 (frameOf (vmmPteForVirtIn s.mem old pg))) child pg).1.isSome = true

/-- Some turn for the page of `p` does. -/
def SomeTurnOk (old child : Nat) : State → List Nat → Nat → Prop
  | _, [], _ => False
  | s, pg :: l, p => (pg / pageSize = p / pageSize ∧ TurnOk s old child pg) ∨ SomeTurnOk old child (copyMapping old child s pg) l p

/-- **When the child is a snapshot**: for every private page the parent has mapped some turn of the loop finds its memory. -/
def CopyOk (s : System) (k : Nat) : Prop :=
  ∀ mm ∈ s.vm.mms k, ∀ v ∈ s.vm.areas mm, Mm.has v.flags Mm.vmShared = false → ∀ p ∈ pagesOf v.start v.endAddr,
    Present (leaf s.pt (s.pgd k) p) →
    SomeTurnOk (s.pgd k) (mmAllocPgd s.pt).1 (mmAllocPgd s.pt).2 (areaPages s mm) p

/-! ## Pages -/

variable {s s' s₀ : State} {o c pg w n : Nat}

theorem mem_pagesOf {a b p : Nat} (h : p ∈ pagesOf a b) : a ≤ p ∧ p < b := by
  obtain ⟨j, hj, rfl⟩ := List.mem_map.1 h
  have hj' := List.mem_range.1 hj
  unfold pageSize at *
  omega

/-- The pages of a range between page boundaries are those of its addresses. -/
theorem exists_mem_pagesOf {a b x : Nat} (ha : pageSize ∣ a) (hb : pageSize ∣ b) :
    (∃ pg ∈ pagesOf a b, x / pageSize = pg / pageSize) ↔ a ≤ x ∧ x < b := by
  obtain ⟨p, rfl⟩ := ha
  obtain ⟨q, rfl⟩ := hb
  constructor
  · rintro ⟨pg, hpg, hx⟩
    obtain ⟨j, hj, rfl⟩ := List.mem_map.1 hpg
    rw [List.mem_range] at hj
    unfold pageSize at *
    omega
  · rintro ⟨h1, h2⟩
    refine ⟨pageSize * p + (x / pageSize - p) * pageSize, List.mem_map.2 ⟨x / pageSize - p, List.mem_range.2 ?_, rfl⟩, ?_⟩
    · unfold pageSize at *
      omega
    · unfold pageSize at *
      omega

theorem dvd_frameOf (e : Nat) : pageSize ∣ frameOf e := ⟨e / 0x1000 % 0x10000000000, Nat.mul_comm _ _⟩

theorem frameOf_add_home {e i : Nat} (hi : i < pageSize) : alignDown (frameOf e + i) pageSize = frameOf e :=
  alignDown_eq_of_dvd (dvd_frameOf e) (Nat.le_add_right _ _) (Nat.add_lt_add_left hi _)

/-- A page taken and written. -/
theorem fillPage_filled (h : Taken s s' n) (hd : pageSize ∣ n) (words : Nat → Nat) :
    Filled s (fillPage s' n words) n ∧ ∀ i, i < pageSize → (fillPage s' n words).mem (n + i) = words i := by
  refine ⟨⟨h.free, h.still, fun a ha => ?_, h.base, h.kernelPml4, h.cr3⟩, fun i hi => ?_⟩
  · show (if n ≤ a ∧ a < n + pageSize then words (a - n) else s'.mem a) = s.mem a
    rw [if_neg fun hc => ha (alignDown_eq_of_dvd hd hc.1 hc.2), h.mem]
  · show (if n ≤ n + i ∧ n + i < n + pageSize then words (n + i - n) else s'.mem (n + i)) = _
    rw [if_pos ⟨Nat.le_add_right _ _, Nat.add_lt_add_left hi _⟩, Nat.add_sub_cancel_left]

theorem copyPage_filled (h : Taken s s' n) (hd : pageSize ∣ n) (src : Nat) :
    Filled s (copyPage s' n src) n ∧ ∀ i, i < pageSize → (copyPage s' n src).mem (n + i) = s.mem (src + i) := by
  rw [← h.mem]
  exact fillPage_filled h hd _

/-- The flags taken from an entry give an entry with its permissions. -/
theorem samePerms_pteFor {e phys : Nat} (he : Present e) (h : phys < 0x10000000000000) :
    SamePerms e (pteFor phys (pteFlags e)) := by
  have hnx : NoExec (pteFlags e) ↔ NoExec e := by
    have hm : Nat.testBit 0xFFF0000000000FFF 63 = true := by decide
    rw [noExec_iff, noExec_iff, pteFlags, Nat.testBit_and, hm, Bool.and_true]
  refine ⟨?_, (noExec_pteFor _ h).trans hnx⟩
  have h12 : pageSize = 2 ^ 12 := rfl
  rw [h12]
  apply Nat.eq_of_testBit_eq
  intro i
  rw [Nat.testBit_mod_two_pow, Nat.testBit_mod_two_pow]
  by_cases hi : i < 12
  · have hm : Nat.testBit 0xFFF0000000000FFF i = true := by decide +revert
    rw [testBit_pteFor _ _ i hi, pteFlags, Nat.testBit_and, hm, Bool.and_true]
    by_cases hi0 : i = 0
    · subst hi0
      rw [present_iff.1 he, beq_self_eq_true, Bool.or_true]
    · rw [beq_eq_false_iff_ne.2 hi0, Bool.or_false]
  · rw [decide_eq_false hi, Bool.false_and, Bool.false_and]

/-! ## The loop -/

/-- **The page of `w` is copied**, to a page that was free and is neither free nor a table of the child now. -/
structure Copied (s₀ s : State) (o c w : Nat) : Prop where
  parent : Present (leaf s₀ o w)
  present : Present (leaf s c w)
  perms : SamePerms (leaf s₀ o w) (leaf s c w)
  contents : ∀ i, i < pageSize → s.mem (frameOf (leaf s c w) + i) = s₀.mem (frameOf (leaf s₀ o w) + i)
  fresh : s₀.Free (frameOf (leaf s c w))
  used : ¬s.Free (frameOf (leaf s c w))
  data : ∀ a, userTree.Owned s.mem c a → alignDown a pageSize ≠ frameOf (leaf s c w)

/-- **Half-way through the loop.** -/
structure CopyInv (s₀ s : State) (o c : Nat) : Prop where
  works : Works s₀ s c
  pages : ∀ w, w < userTop → leaf s c w = 0 ∨ Copied s₀ s o c w

/-- The parent, at the start of the loop: the pages it has mapped are neither free nor tables of the child. -/
structure Start (s₀ : State) (o c : Nat) : Prop where
  spaces : Spaces s₀ fun r => r = o ∨ r = c
  ne : o ≠ c
  backed : ∀ w, w < userTop → Present (leaf s₀ o w) → ¬s₀.Free (frameOf (leaf s₀ o w)) ∧
    ∀ a, userTree.Owned s₀.mem c a → alignDown a pageSize ≠ frameOf (leaf s₀ o w)

theorem CopyInv.space (h : CopyInv s₀ s o c) (hs : Start s₀ o c) : Space s c :=
  h.works.space (hs.spaces.space c (.inr rfl))

theorem CopyInv.parent (h : CopyInv s₀ s o c) (hs : Start s₀ o c) : Space s o ∧ SameLeaves s₀ s o :=
  ⟨(hs.spaces.works (.inr rfl) h.works).space o (.inl rfl), hs.spaces.sameLeaves (.inr rfl) h.works (.inl rfl) hs.ne⟩

/-- The parent's pages keep their contents. -/
theorem CopyInv.contents (h : CopyInv s₀ s o c) (hs : Start s₀ o c) (hw : w < userTop) (hp : Present (leaf s₀ o w)) {i : Nat}
    (hi : i < pageSize) : s.mem (frameOf (leaf s₀ o w) + i) = s₀.mem (frameOf (leaf s₀ o w) + i) := by
  obtain ⟨h1, h2⟩ := hs.backed w hw hp
  apply h.works.grows.frame
  · exact fun hc => h2 _ hc (frameOf_add_home hi)
  · show ¬s₀.Free (alignDown _ _)
    rw [frameOf_add_home hi]
    exact h1

/-- A page copied stays so while its entry does. -/
theorem Copied.keep (h : Copied s₀ s o c w) (hw : Works s s' c) (hl : leaf s' c w = leaf s c w) : Copied s₀ s' o c w := by
  refine ⟨h.parent, hl ▸ h.present, hl ▸ h.perms, fun i hi => ?_, hl ▸ h.fresh, fun hc => ?_, fun a ha hc => ?_⟩
  · rw [hl, ← h.contents i hi]
    apply hw.grows.frame
    · exact fun hc => h.data _ hc (frameOf_add_home hi)
    · show ¬s.Free (alignDown _ _)
      rw [frameOf_add_home hi]
      exact h.used
  · rw [hl] at hc
    exact h.used (hw.grows.still _ hc)
  · rw [hl] at hc
    rcases hw.grows.owned a ha with h1 | h1
    · exact h.data a h1 hc
    · have h1' : s.Free (alignDown a pageSize) := h1
      rw [hc] at h1'
      exact h.used h1'

theorem CopyInv.keep (h : CopyInv s₀ s o c) (hw : Works s s' c) (hl : SameLeaves s s' c) : CopyInv s₀ s' o c := by
  refine ⟨h.works.trans hw, fun w hw' => ?_⟩
  rw [hl w hw']
  exact (h.pages w hw').imp_right fun hc => hc.keep hw (hl w hw')

/-- The child's page once its entry is stored. -/
theorem CopyInv.store {dst : Nat} {s₁ s₂ : State} (h : CopyInv s₀ s o c) (hs : Start s₀ o c) (hpg : pg < userTop)
    (hp : Present (leaf s₀ o pg)) (hn : Taken s s₁ dst) (hcopy : s₂ = copyPage s₁ dst (frameOf (leaf s₀ o pg)))
    (hw : Works s₂ s' c) (hl : LeafSet s₂ s' c pg (pteFor dst (pteFlags (leaf s₀ o pg)))) : CopyInv s₀ s' o c := by
  have hsc := h.space hs
  have hd := hsc.dvd_of_free hn.free
  obtain ⟨hfill, hcont⟩ := copyPage_filled hn hd (frameOf (leaf s₀ o pg))
  rw [← hcopy] at hfill hcont
  obtain ⟨hw₂, hl₂⟩ := hsc.filled hfill
  have htop := hsc.lt_of_free hn.free
  have hw' := hw₂.trans hw
  have hframe := frameOf_pteFor (pteFlags (leaf s₀ o pg)) hd htop
  -- the new page is no table of the child
  have hdata : ∀ a, userTree.Owned s₂.mem c a → alignDown a pageSize ≠ dst := by
    intro a ha hc
    rw [Layout.owned_congr fun b hb => hfill.mem_of_not_free (hsc.tree.not_free hb)] at ha
    exact hsc.tree.not_free ha (hc ▸ hn.free : s.Free (alignDown a pageSize))
  refine ⟨h.works.trans hw', fun w hwt => ?_⟩
  have hlw := hl w hwt
  by_cases hpage : w / pageSize = pg / pageSize
  · rw [if_pos hpage] at hlw
    have hsame := leaf_congr s₀ o hpg hwt hpage
    refine .inr ⟨hsame ▸ hp, ?_, ?_, fun i hi => ?_, ?_, fun hc => ?_, fun a ha hc => ?_⟩
    · rw [hlw]
      exact present_pteFor _ _
    · rw [hlw, hsame]
      exact samePerms_pteFor hp htop
    · rw [hlw, hframe, hsame, ← h.contents hs hpg hp hi, ← hcont i hi]
      have hhome : alignDown (dst + i) pageSize = dst :=
        alignDown_eq_of_dvd hd (Nat.le_add_right _ _) (Nat.add_lt_add_left hi _)
      apply hw.grows.frame
      · exact fun hc => hdata _ hc hhome
      · show ¬s₂.Free (alignDown _ _)
        rw [hhome]
        exact hfill.not_free
    · rw [hlw, hframe]
      exact h.works.grows.still _ hn.free
    · rw [hlw, hframe] at hc
      exact hfill.not_free (hw.grows.still _ hc)
    · rw [hlw, hframe] at hc
      rcases hw.grows.owned a ha with h1 | h1
      · exact hdata a h1 hc
      · have h1' : s₂.Free (alignDown a pageSize) := h1
        rw [hc] at h1'
        exact hfill.not_free h1'
  · rw [if_neg hpage, hl₂ w hwt] at hlw
    rw [hlw]
    exact (h.pages w hwt).imp_right fun hc => hc.keep hw' hlw

/-- A page has its entry, or the parent has it and a turn for it found its memory. -/
def TurnMaps (s₀ s : State) (o c pg w : Nat) : Prop :=
  pg / pageSize = w / pageSize ∧ Present (leaf s₀ o w) ∧ TurnOk s o c pg

/-- **One turn of the loop.** -/
theorem CopyInv.turn (h : CopyInv s₀ s o c) (hs : Start s₀ o c) (hpg : pg < userTop) :
    CopyInv s₀ (copyMapping o c s pg) o c ∧
      ∀ w, w < userTop → (Present (leaf (copyMapping o c s pg) c w) ↔ Present (leaf s c w) ∨ TurnMaps s₀ s o c pg w) := by
  obtain ⟨hpar, hleaves⟩ := h.parent hs
  have hsc := h.space hs
  have hpte : vmmPteForVirtIn s.mem o pg = leaf s₀ o pg := (hpar.vmmPteForVirtIn_eq hpg).trans (hleaves pg hpg)
  have hsame : ∀ w, w < userTop → pg / pageSize = w / pageSize → leaf s₀ o w = leaf s₀ o pg :=
    fun w hw he => leaf_congr s₀ o hpg hw he.symm
  -- what is left to show when no entry changes
  have hstay : ∀ s', Works s s' c → SameLeaves s s' c → (∀ w, w < userTop → ¬TurnMaps s₀ s o c pg w) →
      CopyInv s₀ s' o c ∧ ∀ w, w < userTop → (Present (leaf s' c w) ↔ Present (leaf s c w) ∨ TurnMaps s₀ s o c pg w) := by
    intro s' hw hl hno
    refine ⟨h.keep hw hl, fun w hwt => ?_⟩
    rw [hl w hwt, or_iff_left (hno w hwt)]
  by_cases hp : Present (leaf s₀ o pg)
  swap
  · have hstep : copyMapping o c s pg = s := by
      unfold copyMapping
      dsimp only
      rw [hpte, if_pos hp]
    rw [hstep]
    refine hstay s hsc.refl (fun _ _ => rfl) fun w hwt hm => hp ?_
    rw [← hsame w hwt hm.1]
    exact hm.2.1
  rcases ha : pmmAllocPage s with ⟨_ | m, s₁⟩
  · have hstep : copyMapping o c s pg = s₁ := by
      unfold copyMapping
      dsimp only
      rw [hpte, if_neg (not_not.2 hp), ha]
      rfl
    rw [hstep]
    refine hstay s₁ ?_ ?_ fun w _ hm => hm.2.2.2.1 (congrArg Prod.fst ha)
    · rcases pmmAllocPage_spec ha with ⟨-, rfl⟩ | hn
      · exact hsc.refl
      · exact hsc.works_taken hn
    · rcases pmmAllocPage_spec ha with ⟨-, rfl⟩ | hn
      · exact fun _ _ => rfl
      · exact (hsc.filled hn.filled).2
  have hn : Taken s s₁ (m + 1) := (pmmAllocPage_spec ha).resolve_left fun hc => Nat.succ_ne_zero m hc.1
  obtain ⟨hfill, -⟩ := copyPage_filled hn (hsc.dvd_of_free hn.free) (frameOf (leaf s₀ o pg))
  obtain ⟨hw₂, hl₂⟩ := hsc.filled hfill
  have hstep : copyMapping o c s pg =
      vmmMapPageInPgd (copyPage s₁ (m + 1) (frameOf (leaf s₀ o pg))) c pg (m + 1) (pteFlags (leaf s₀ o pg)) := by
    unfold copyMapping
    dsimp only
    rw [hpte, if_neg (not_not.2 hp), ha]
    rfl
  rw [hstep]
  have hok : TurnOk s o c pg ↔ pg ≠ 0 ∧
      (obtainPt (copyPage s₁ (m + 1) (frameOf (leaf s₀ o pg))) c pg).1.isSome = true := by
    unfold TurnOk
    rw [ha, hpte]
    exact and_congr_right fun _ => and_iff_right (Nat.succ_ne_zero m)
  by_cases hpg0 : pg = 0
  · -- page 0
    have hskip : ∀ s₂ : State, vmmMapPageInPgd s₂ c pg (m + 1) (pteFlags (leaf s₀ o pg)) = s₂ := fun _ => if_pos hpg0
    rw [hskip]
    exact hstay _ hw₂ hl₂ fun w _ hm => (hok.1 hm.2.2).1 hpg0
  obtain ⟨hw₃, hmap⟩ := mapInPgd_spec (m + 1) (pteFlags (leaf s₀ o pg)) (hw₂.space hsc) hpg hpg0
  by_cases ho : (obtainPt (copyPage s₁ (m + 1) (frameOf (leaf s₀ o pg))) c pg).1.isSome = true
  · rw [if_pos ho] at hmap
    refine ⟨h.store hs hpg hp hn rfl hw₃ hmap, fun w hwt => ?_⟩
    rw [hmap w hwt]
    by_cases hpage : w / pageSize = pg / pageSize
    · rw [if_pos hpage]
      refine iff_of_true (present_pteFor _ _) (.inr ⟨hpage.symm, ?_, hok.2 ⟨hpg0, ho⟩⟩)
      rw [hsame w hwt hpage.symm]
      exact hp
    · rw [if_neg hpage, hl₂ w hwt, or_iff_left fun hm => hpage hm.1.symm]
  · rw [if_neg ho] at hmap
    exact hstay _ (hw₂.trans hw₃) (hl₂.trans hmap.1) fun w _ hm => ho (hok.1 hm.2.2).2

/-- **The whole loop**: what is mapped afterwards was mapped before, or some turn found its memory. -/
theorem CopyInv.run (hs : Start s₀ o c) : ∀ {l : List Nat} {s : State}, CopyInv s₀ s o c → (∀ pg ∈ l, pg < userTop) →
    CopyInv s₀ (l.foldl (copyMapping o c) s) o c ∧
      ∀ w, w < userTop → (Present (leaf (l.foldl (copyMapping o c) s) c w) ↔
        Present (leaf s c w) ∨ Present (leaf s₀ o w) ∧ SomeTurnOk o c s l w)
  | [], s, h, _ => ⟨h, fun w _ => (or_iff_left fun hc => hc.2).symm⟩
  | pg :: l, s, h, hl => by
    obtain ⟨h1, h2⟩ := h.turn hs (hl pg List.mem_cons_self)
    obtain ⟨h3, h4⟩ := h1.run hs fun q hq => hl q (List.mem_cons_of_mem pg hq)
    refine ⟨h3, fun w hw => (h4 w hw).trans ?_⟩
    rw [h2 w hw, or_assoc]
    refine or_congr_right ?_
    unfold TurnMaps
    rw [and_left_comm, ← and_or_left]
    rfl

theorem SomeTurnOk.mem {p : Nat} : ∀ {l : List Nat} {s : State}, SomeTurnOk o c s l p → ∃ q ∈ l, q / pageSize = p / pageSize
  | pg :: _, _, .inl h => ⟨pg, List.mem_cons_self, h.1⟩
  | _ :: _, _, .inr h => by
    obtain ⟨q, hq, he⟩ := h.mem
    exact ⟨q, List.mem_cons_of_mem _ hq, he⟩

/-! ## The snapshot -/

/-- The loop starts with an empty root beside the parent's. -/
theorem ProcOk.start {s : System} {k pgd : Nat} {pt : State} (hp : ProcOk s k) (hn : Filled s.pt pt pgd)
    (hz : ∀ i, i < 256 → pt.mem (slot pgd i) = 0) :
    Start pt (s.pgd k) pgd ∧ SameLeaves s.pt pt (s.pgd k) ∧ CopyInv pt pt (s.pgd k) pgd := by
  have hspace := hp.spaces.space _ rfl
  have hnew := hp.spaces.newRoot hn hz
  have hsame := (hspace.filled hn).2
  have hroot : ¬s.pt.Free (s.pgd k) := hspace.tree.used [] _ Layout.path_nil rfl
  refine ⟨⟨hnew, ?_, fun w hw hpw => ?_⟩, hsame, (hnew.space pgd (.inr rfl)).refl, fun w hw => .inl (leaf_newRoot hz hw)⟩
  · rintro he
    rw [he] at hroot
    exact hroot hn.free
  · rw [hsame w hw] at hpw ⊢
    have hfree := hp.backed w hw hpw
    refine ⟨fun hc => hfree (hn.still _ hc).1, fun a ha hc => hfree ?_⟩
    have hhome : alignDown a pageSize = pgd :=
      Layout.home_of_owned_empty (L := userTree) hz ((hnew.space pgd (.inr rfl)).tree.isRoot) ha
    rw [← hc, hhome]
    exact hn.free

/-- A page copied is a page of the snapshot. -/
theorem Copied.pageCopied {s s' : System} {k j p pgd : Nat} {pt : State} (hp : ProcOk s k) (hn : Filled s.pt pt pgd)
    (hsame : SameLeaves s.pt pt (s.pgd k)) (hj : s'.pgd j = pgd) (hpt : p < userTop)
    (hc : Copied pt s'.pt (s.pgd k) pgd p) : PageCopied s s' k j p := by
  obtain ⟨h1, h2, h3, h4, h5, -, -⟩ := hc
  rw [hsame p hpt] at h1 h3 h4
  refine ⟨?_, ?_, fun i hi => ?_, fun w hw hpw hc => ?_⟩
  · rw [hj]
    exact h2
  · rw [hj]
    exact h3
  · rw [hj, h4 i hi]
    apply hn.mem_of_not_free
    rw [frameOf_add_home hi]
    exact hp.backed p hpt h1
  · rw [hj] at hc
    rw [hc] at h5
    exact hp.backed w hw hpw (hn.still _ h5).1

/-- What a call that succeeds did. -/
theorem mmCopy_some {s s' : System} {k j : Nat} {new : Option Nat} {nodes : Nat → Option Nat}
    (h : mmCopy s k new nodes = (some j, s')) : ∃ old m pt head vm, s.vm.mms k = some old ∧
      mmAllocPgd s.pt = (m + 1, pt) ∧ Mm.copyVmas nodes s.vm.bound s.vm old.mmap none none = (some head, vm) ∧
      s' = ⟨vm.setMm j ⟨head, old.startBrk, old.brk, old.startStack, 0⟩,
        (areaPages s old).foldl (copyMapping (s.pgd k) (m + 1)) pt, Function.update s.pgd j (m + 1)⟩ := by
  unfold mmCopy at h
  split at h
  swap
  · cases h
  rename_i old j' hk
  split at h
  · cases h
  rcases ha : mmAllocPgd s.pt with ⟨_ | m, pt⟩
  · rw [ha] at h
    cases h
  rw [ha] at h
  rcases hcopy : Mm.copyVmas nodes s.vm.bound s.vm old.mmap none none with ⟨_ | head, vm⟩
  · rw [hcopy] at h
    cases h
  rw [hcopy] at h
  cases h
  exact ⟨old, m, pt, head, vm, hk, rfl, hcopy, rfl⟩

/-- **A fork that succeeds is a snapshot exactly when every private page the parent has mapped found its memory.** -/
theorem snapshot_iff (s s' : System) (k j : Nat) (new : Option Nat) (nodes : Nat → Option Nat) (hp : ProcOk s k)
    (hu : UserAreas s k) (h : mmCopy s k new nodes = (some j, s')) : Snapshot s s' k j ↔ CopyOk s k := by
  obtain ⟨old, m, pt, head, vm, hk, ha, hcopy, rfl⟩ := mmCopy_some h
  obtain ⟨hn, hz⟩ := (mmAllocPgd_spec hp.spaces.base ha).resolve_left fun hc => Nat.succ_ne_zero m hc.1
  obtain ⟨hstart, hsame, hinv⟩ := hp.start hn hz
  have hpages : ∀ pg ∈ areaPages s old, pg < userTop := by
    intro pg hpg
    obtain ⟨v, hv, hpv⟩ := List.mem_flatMap.1 hpg
    exact Nat.lt_of_lt_of_le (mem_pagesOf hpv).2 (hu old hk v hv)
  obtain ⟨hend, hmapped⟩ := hinv.run hstart hpages
  have hj : Function.update s.pgd j (m + 1) j = m + 1 := Function.update_self _ _ _
  -- what the child has mapped
  have hiff : ∀ w, w < userTop →
      (Present (leaf ((areaPages s old).foldl (copyMapping (s.pgd k) (m + 1)) pt) (m + 1) w) ↔
        Present (leaf s.pt (s.pgd k) w) ∧ SomeTurnOk (s.pgd k) (m + 1) pt (areaPages s old) w) := by
    intro w hw
    have hzero : ¬Present (leaf pt (m + 1) w) := by
      rw [leaf_newRoot hz hw]
      exact not_present_zero
    rw [hmapped w hw, or_iff_right hzero, hsame w hw]
  constructor
  · rintro ⟨-, hpg, -⟩
    intro mm hmm v hv hpriv p hpv hpres
    cases hk.symm.trans hmm
    have hpt : p < userTop := hpages p (List.mem_flatMap.2 ⟨v, hv, hpv⟩)
    have hc := (hpg old hk v hv hpriv p hpv hpres).present
    dsimp only at hc
    rw [hj] at hc
    rw [ha]
    exact ((hiff p hpt).1 hc).2
  · intro hok
    refine ⟨fun mm hmm => ?_, fun mm hmm v hv hpriv p hpv hpres => ?_, fun mm hmm p hpt hpres => ?_⟩
    · cases hk.symm.trans hmm
      obtain ⟨l, hl⟩ := hp.lists old hk
      refine ⟨_, Function.update_self _ _ _, ?_⟩
      have hareas := Mm.copyVmas_areas ⟨head, old.startBrk, old.brk, old.startStack, 0⟩ hl hp.bound hcopy rfl
      exact congrArg (List.map fun v => (v.start, v.endAddr)) hareas
    · cases hk.symm.trans hmm
      have hpt : p < userTop := hpages p (List.mem_flatMap.2 ⟨v, hv, hpv⟩)
      have hturn := hok old hk v hv hpriv p hpv hpres
      rw [ha] at hturn
      have hpc := (hiff p hpt).2 ⟨hpres, hturn⟩
      refine Copied.pageCopied hp hn hsame hj hpt ((hend.pages p hpt).resolve_left fun h0 => ?_)
      rw [h0] at hpc
      exact not_present_zero hpc
    · cases hk.symm.trans hmm
      dsimp only at hpres
      rw [hj] at hpres
      obtain ⟨h1, h2⟩ := (hiff p hpt).1 hpres
      exact ⟨h1, h2.mem⟩

/-- `n` pages from 1 MB on, the first one `kernel_pml4`, the others free. -/
def bootPages (n : Nat) : State := ⟨fun _ => 0, fun i => decide (1 ≤ i ∧ i < n), 0x100000, 0x100000, 0x100000⟩

/-- A process with one private page, at `0x400000`. -/
def oneProc (n : Nat) : System :=
  let root := mmAllocPgd (bootPages n)
  let frame := pmmAllocPage root.2
  { vm :=
      { mms := fun k => if k = 0 then some ⟨some 0, 0x401000, 0x401000, 0x7FFFFFFFE000, 1⟩ else none
        vmas := fun _ => ⟨0x400000, 0x401000, Mm.vmRead ||| Mm.vmWrite, Mm.vmRead ||| Mm.vmWrite, 0⟩
        links := ⟨fun _ => none, fun _ => none⟩
        live := fun i => i == 0
        bound := 1
        kmapPtr := 0xFFFF800100000000 }
    pt := vmmMapPageInPgd frame.2 root.1 0x400000 frame.1 (ptePresent ||| pteUser ||| pteWrite)
    pgd := fun _ => root.1 }

/-- The first page of an address space: it is the only one mapped, and in use. -/
theorem backed_mapFirst (flags : Nat) {s₁ : State} {v f : Nat} (h : Space s o) (hzero : ∀ w, w < userTop → leaf s o w = 0)
    (hn : Taken s s₁ f) (hv : v < userTop) (hv0 : v ≠ 0) :
    Works s (vmmMapPageInPgd s₁ o v f flags) o ∧ ∀ w, w < userTop → Present (leaf (vmmMapPageInPgd s₁ o v f flags) o w) →
      ¬(vmmMapPageInPgd s₁ o v f flags).Free (frameOf (leaf (vmmMapPageInPgd s₁ o v f flags) o w)) := by
  obtain ⟨hw1, hl1⟩ := h.filled hn.filled
  obtain ⟨hw2, hmap⟩ := mapInPgd_spec f flags (hw1.space h) hv hv0
  refine ⟨hw1.trans hw2, fun w hw hp hc => ?_⟩
  by_cases ho : (obtainPt s₁ o v).1.isSome = true
  · rw [if_pos ho] at hmap
    have hlw := hmap w hw
    by_cases hpage : w / pageSize = v / pageSize
    · rw [if_pos hpage] at hlw
      rw [hlw, frameOf_pteFor _ (h.dvd_of_free hn.free) (h.lt_of_free hn.free)] at hc
      exact (hn.still _ (hw2.grows.still _ hc)).2 rfl
    · rw [if_neg hpage, hl1 w hw, hzero w hw] at hlw
      rw [hlw] at hp
      exact not_present_zero hp
  · rw [if_neg ho] at hmap
    rw [hmap.1 w hw, hl1 w hw, hzero w hw] at hp
    exact not_present_zero hp

theorem oneProc_ok {n : Nat} (h1 : (mmAllocPgd (bootPages n)).1 ≠ 0)
    (h2 : (pmmAllocPage (mmAllocPgd (bootPages n)).2).1 ≠ 0) : ProcOk (oneProc n) 0 := by
  have hno : Spaces (bootPages n) fun _ => False :=
    ⟨fun _ h => h.elim, fun _ _ h => h.elim, ⟨0x100, rfl⟩, (by decide : 0x100000 + 65536 * 4096 ≤ 0x10000000000000)⟩
  obtain ⟨hroot, hz⟩ := (mmAllocPgd_spec hno.base rfl).resolve_left fun hc => h1 hc.1
  have hn := (pmmAllocPage_spec rfl).resolve_left fun hc => h2 hc.1
  have hs := hno.newRoot hroot hz
  obtain ⟨hw, hb⟩ := backed_mapFirst (ptePresent ||| pteUser ||| pteWrite) (hs.space _ (.inr rfl))
    (fun w => leaf_newRoot hz) hn (by decide : 0x400000 < userTop) (by decide)
  refine ⟨fun mm hmm => ⟨[0], ?_⟩, fun i hi => ?_, (hs.works (.inr rfl) hw).mono fun r hr => .inr hr, hb⟩
  · cases hmm
    exact ⟨⟨rfl, rfl⟩, List.nodup_singleton 0, fun i hi => List.mem_singleton.1 hi ▸ rfl⟩
  · have hi' : i = 0 := beq_iff_eq.1 hi
    exact hi' ▸ Nat.zero_lt_one

theorem oneProc_areas {n : Nat} : UserAreas (oneProc n) 0 := by
  intro mm hmm v hv
  cases hmm
  cases List.mem_singleton.1 hv
  exact (by decide : 0x401000 ≤ userTop)

theorem snapshot_iff_oneProc :
    ∃ s', mmCopy (oneProc 20) 0 (some 1) (fun _ => some 1) = (some 1, s') ∧ (Snapshot (oneProc 20) s' 0 1 ↔ CopyOk (oneProc 20) 0) := by
  have h : (mmCopy (oneProc 20) 0 (some 1) fun _ => some 1) = (some 1, (mmCopy (oneProc 20) 0 (some 1) fun _ => some 1).2) :=
    Prod.ext (by decide +kernel) rfl
  exact ⟨_, h, snapshot_iff _ _ _ _ _ _ (oneProc_ok (by decide +kernel) (by decide +kernel)) oneProc_areas h⟩

/-- Only one page is left, for the root of the child. -/
def fullProc : System := { oneProc 20 with pt := { (oneProc 20).pt with pageBitmap := fun i => i == 6 } }

theorem fullProc_ok : ProcOk fullProc 0 := by
  obtain ⟨h1, h2, h3, h4⟩ := oneProc_ok (n := 20) (by decide +kernel) (by decide +kernel)
  have hfree : ∀ t, fullProc.pt.Free t → (oneProc 20).pt.Free t := by
    rintro t ⟨i, hi, hb, rfl⟩
    have hi6 : i = 6 := beq_iff_eq.1 hb
    subst hi6
    exact ⟨6, hi, by decide +kernel, rfl⟩
  refine ⟨h1, h2, ⟨fun r hr => h3.keep hr (fun _ _ => rfl) hfree rfl, h3.apart, h3.base, h3.top⟩, fun w hw hp hc => ?_⟩
  exact h4 w hw hp (hfree _ hc)

/-- No page is left: nothing is copied. -/
theorem copyMapping_full (hf : ∀ i, s.pageBitmap i = false) (pg : Nat) : copyMapping o c s pg = s := by
  have hnone : ∀ m i, firstFree s.pageBitmap m i = none := by
    intro m
    induction m with
    | zero => exact fun _ => rfl
    | succ m ih =>
      intro i
      rw [firstFree, hf, if_neg Bool.false_ne_true]
      exact ih (i + 1)
  have ha : pmmAllocPage s = (0, s) := by
    unfold pmmAllocPage
    rw [hnone]
  unfold copyMapping
  dsimp only
  rw [ha]
  split <;> rfl

theorem foldl_copyMapping_full (hf : ∀ i, s.pageBitmap i = false) : ∀ l : List Nat, l.foldl (copyMapping o c) s = s
  | [] => rfl
  | pg :: l => by
    rw [List.foldl_cons, copyMapping_full hf]
    exact foldl_copyMapping_full hf l

/-- **The last page goes to the child's root**: the fork succeeds, and the page of the parent is not in the child. -/
theorem not_snapshot_fullProc :
    ProcOk fullProc 0 ∧ UserAreas fullProc 0 ∧
      ∃ s', mmCopy fullProc 0 (some 1) (fun _ => some 1) = (some 1, s') ∧ ¬Snapshot fullProc s' 0 1 := by
  have h : mmCopy fullProc 0 (some 1) (fun _ => some 1) = (some 1, (mmCopy fullProc 0 (some 1) fun _ => some 1).2) :=
    Prod.ext (by decide +kernel) rfl
  refine ⟨fullProc_ok, oneProc_areas (n := 20), _, h, fun hs => ?_⟩
  have hc := hs.pages _ rfl ⟨0x400000, 0x401000, Mm.vmRead ||| Mm.vmWrite, Mm.vmRead ||| Mm.vmWrite, 0⟩ (by decide) rfl 0x400000
    (by decide) (by decide +kernel)
  obtain ⟨old, m, pt, head, vm, hk, ha, -, hs'⟩ := mmCopy_some h
  obtain ⟨-, hz⟩ := (mmAllocPgd_spec fullProc_ok.spaces.base ha).resolve_left fun hc => Nat.succ_ne_zero m hc.1
  have hfull : ∀ i, pt.pageBitmap i = false := by
    intro i
    have hpt : pt.pageBitmap = Function.update (fun i => i == 6) 6 false :=
      (congrArg (fun r => r.2.pageBitmap) ha).symm.trans rfl
    rw [hpt, Function.update_apply]
    by_cases hi : i = 6
    · rw [if_pos hi]
    · rw [if_neg hi]
      exact beq_eq_false_iff_ne.2 hi
  have hleaf := hc.present
  rw [hs'] at hleaf
  dsimp only at hleaf
  rw [foldl_copyMapping_full hfull, Function.update_self, leaf_newRoot hz (by decide)] at hleaf
  exact not_present_zero hleaf

end AddrSpace
end Pico
