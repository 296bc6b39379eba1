import Picomimi.PagingSpaces
/-!
# PagingMap — what `vmm_map_page` does to every translation

Here the whole root counts, the kernel's half too.  Under `Whole` (distinct tables, none of which may be handed out, no
large page) every translation is read off one entry, so what `vmm_map_page` stores decides it: the page mapped leads to
its frame and every other page where it led before (`vmmMapPage_translates`), whatever tables had to be made on the way.
-/
namespace Pico
namespace Paging

open Lib

theorem fullFirst : 512 ≤ 512 := Nat.le_refl 512

/-- **The whole tree below the root `r`, without large pages**: of the entries that lead to a page directory or a page
table none has `PTE_HUGE`. -/
structure Whole (s : State) (r : Nat) : Prop extends Tables fullFirst s r where
  plain : ∀ i p, (treeOf fullFirst).Path (i :: p) → p ≠ [] → Present ((treeOf fullFirst).entryAt s.mem r i p) →
    ¬Huge ((treeOf fullFirst).entryAt s.mem r i p)

/-- The next `n` calls of `pmm_alloc_page` return a page. -/
inductive CanAllocate : Nat → State → Prop where
  | none (s : State) : CanAllocate 0 s
  | page {n : Nat} {s : State} (h : (pmmAllocPage s).1 ≠ 0) (hnext : CanAllocate n (pmmAllocPage s).2) : CanAllocate (n + 1) s

/-- The number of tables a walk lacks. -/
def missing (mem : Nat → Nat) (pml4 virt : Nat) : Nat :=
  if ¬Present (mem (pml4Slot pml4 virt)) then 3
  else if ¬Present (mem (pdptSlot mem pml4 virt)) then 2
  else if ¬Present (mem (pdSlot mem pml4 virt)) then 1
  else 0

/-- An address as the processor takes it: bits 48 to 63 repeat bit 47. -/
def Canonical (a : Nat) : Prop := a < userTop ∨ 0xFFFF800000000000 ≤ a ∧ a < word64

variable {s s' : State} {r t i v w phys flags m n first : Nat} {hf : first ≤ 512}

/-- Canonical addresses on one page of the walk are on one page. -/
theorem walkPage_canonical (hv : Canonical v) (hw : Canonical w) :
    walkPage w = walkPage v ↔ w / pageSize = v / pageSize := by
  unfold Canonical at hv hw
  unfold walkPage userTop word64 pageSize at *
  omega

theorem pml4Idx_lt (v : Nat) : pml4Idx v < 512 := Nat.mod_lt _ (by decide)

/-! ## The steps down succeed -/

theorem CanAllocate.mono (h : CanAllocate n s) : ∀ {m : Nat}, m ≤ n → CanAllocate m s := by
  induction h with
  | none s =>
    intro m hm
    rw [Nat.le_zero.1 hm]
    exact .none s
  | page h0 _ ih =>
    intro m hm
    cases m with
    | zero => exact .none _
    | succ m => exact .page h0 (ih (Nat.le_of_succ_le_succ hm))

/-- It does not look at the memory. -/
theorem CanAllocate.congr (h : CanAllocate n s) : ∀ {s' : State}, s'.pageBitmap = s.pageBitmap →
    s'.bitmapBase = s.bitmapBase → CanAllocate n s' := by
  induction h with
  | none => exact fun _ _ => .none _
  | @page n s h0 _ ih =>
    intro s' hb hbase
    have h1 : (pmmAllocPage s').1 = (pmmAllocPage s).1 ∧
        (pmmAllocPage s').2.pageBitmap = (pmmAllocPage s).2.pageBitmap ∧
          (pmmAllocPage s').2.bitmapBase = (pmmAllocPage s).2.bitmapBase := by
      unfold pmmAllocPage
      rw [hb, hbase]
      cases firstFree s.pageBitmap bitmapPages 0 with
      | none => exact ⟨rfl, hb, hbase⟩
      | some j => exact ⟨rfl, rfl, rfl⟩
    exact .page (h1.1 ▸ h0) (ih h1.2.1 h1.2.2)

/-- **A step down succeeds**, and uses up one page when the table is not there. -/
theorem getOrCreateTable_some (h : CanAllocate (n + if Present (s.mem (slot t i)) then 0 else 1) s) :
    ∃ u s', getOrCreateTable s t i = (some u, s') ∧ CanAllocate n s' := by
  unfold getOrCreateTable
  by_cases hp : Present (s.mem (slot t i))
  · rw [if_pos hp] at h
    rw [if_neg (not_not.2 hp)]
    exact ⟨_, _, rfl, h.congr rfl rfl⟩
  · rw [if_neg hp] at h
    rw [if_pos hp]
    cases h with
    | page h0 h1 =>
      rcases ha : pmmAllocPage s with ⟨_ | u, s₁⟩
      · rw [ha] at h0
        exact absurd rfl h0
      · rw [ha] at h1
        exact ⟨_, _, rfl, h1.congr rfl rfl⟩

/-- An entry that leads to a table still does after steps down. -/
theorem Steps.present {p : List Nat} {t' : Nat} (h : Steps hf s s' r) (hp : (treeOf hf).Path (i :: p))
    (ht : (treeOf hf).tableAt s.mem r p = some t) (he : Present (s.mem (slot t i)))
    (ht' : (treeOf hf).tableAt s'.mem r p = some t') : Present (s'.mem (slot t' i)) := by
  have h1 : (treeOf hf).tableAt s.mem r (i :: p) = some (tableOf (s.mem (slot t i))) :=
    (Layout.tableAt_of_parent ht).trans (nextTable_of_present he)
  have h2 := h.grows.kept (i :: p) _ hp h1
  rw [Layout.tableAt_of_parent ht'] at h2
  by_contra hno
  have h3 : nextTable (s'.mem (slot t' i)) = some (tableOf (s.mem (slot t i))) := h2
  rw [nextTable_of_not_present hno] at h3
  cases h3

/-- Level by level. -/
theorem missing_eq (mem : Nat → Nat) (pml4 virt : Nat) : missing mem pml4 virt =
    ((if Present (mem (pml4Slot pml4 virt)) ∧ Present (mem (pdptSlot mem pml4 virt)) ∧ Present (mem (pdSlot mem pml4 virt))
        then 0 else 1) +
      if Present (mem (pml4Slot pml4 virt)) ∧ Present (mem (pdptSlot mem pml4 virt)) then 0 else 1) +
      if Present (mem (pml4Slot pml4 virt)) then 0 else 1 := by
  unfold missing
  by_cases p4 : Present (mem (pml4Slot pml4 virt)) <;> by_cases p3 : Present (mem (pdptSlot mem pml4 virt)) <;>
    by_cases p2 : Present (mem (pdSlot mem pml4 virt)) <;> simp [p4, p3, p2]

theorem missing_le (mem : Nat → Nat) (pml4 virt : Nat) : missing mem pml4 virt ≤ 3 := by
  unfold missing
  split
  · exact Nat.le_refl 3
  · split
    · decide
    · split <;> decide

/-- **With a page for each table that is missing, the page table is found or made.** -/
theorem Tables.obtainPt_some (h : Tables hf s r) (hv : pml4Idx v < first) (ha : CanAllocate (missing s.mem r v) s) :
    (obtainPt s r v).1.isSome = true := by
  have hcost : ∀ (n : Nat) (e e' : Prop) [Decidable e] [Decidable e'], (e → e') →
      (n + if e' then 0 else 1) ≤ n + if e then 0 else 1 := by
    intro n e e' _ _ hee
    by_cases he : e
    · exact Nat.le_of_eq (by rw [if_pos he, if_pos (hee he)])
    · rw [if_neg he]
      split <;> omega
  rw [missing_eq] at ha
  obtain ⟨pdpt, s₄, h4, a4⟩ := getOrCreateTable_some (t := r) (i := pml4Idx v) ha
  obtain ⟨w4, -, u4⟩ := h.getOrCreateTable_spec (path_pml4_of hf hv) rfl h4
  have t4 : Present (s.mem (pml4Slot r v)) → (treeOf hf).tableAt s.mem r [pml4Idx v] = some (tableOf (s.mem (pml4Slot r v))) :=
    nextTable_of_present
  -- an entry that was there is there in the state the next step finds
  have q3 : Present (s.mem (pml4Slot r v)) ∧ Present (s.mem (pdptSlot s.mem r v)) → Present (s₄.mem (slot pdpt (pdptIdx v))) :=
    fun hp => w4.present (path_pdpt_of hf hv) (t4 hp.1) hp.2 u4
  obtain ⟨pd, s₃, h3, a3⟩ := getOrCreateTable_some (a4.mono (hcost _ _ _ q3))
  obtain ⟨w3, -, u3⟩ := (w4.tables h).getOrCreateTable_spec (path_pdpt_of hf hv) u4 h3
  have q2 : Present (s.mem (pml4Slot r v)) ∧ Present (s.mem (pdptSlot s.mem r v)) ∧ Present (s.mem (pdSlot s.mem r v)) →
      Present (s₃.mem (slot pd (pdIdx v))) :=
    fun hp => (w4.trans w3).present (path_dirs_of hf hv)
      ((Layout.tableAt_of_parent (t4 hp.1)).trans (nextTable_of_present hp.2.1)) hp.2.2 u3
  obtain ⟨pt, s₂, h2, -⟩ := getOrCreateTable_some (n := 0) (t := pd) (i := pdIdx v)
    (a3.mono (Nat.le_trans (hcost 0 _ _ q2) (Nat.le_of_eq (Nat.zero_add _))))
  unfold obtainPt
  rw [h4]
  dsimp only
  rw [h3]
  dsimp only
  rw [h2]
  rfl

/-! ## The translations -/

theorem Whole.noLarge (h : Whole s r) (v : Nat) : NoLarge s.mem r v := by
  intro p4 p3
  have h4 : (treeOf fullFirst).tableAt s.mem r [pml4Idx v] = some (tableOf (s.mem (pml4Slot r v))) :=
    nextTable_of_present p4
  have h3 : (treeOf fullFirst).tableAt s.mem r [pdptIdx v, pml4Idx v] = some (tableOf (s.mem (pdptSlot s.mem r v))) :=
    (Layout.tableAt_of_parent h4).trans (nextTable_of_present p3)
  have hp3 := h.plain _ _ (path_pdpt_of fullFirst (pml4Idx_lt v)) (List.cons_ne_nil _ _)
  have hp2 := h.plain _ _ (path_dirs_of fullFirst (pml4Idx_lt v)) (List.cons_ne_nil _ _)
  rw [Layout.entryAt_of_table h4] at hp3
  rw [Layout.entryAt_of_table h3] at hp2
  exact ⟨hp3 p3, hp2⟩

/-- Steps down keep the tree whole. -/
theorem Steps.whole (hs : Steps fullFirst s s' r) (h : Whole s r) : Whole s' r := by
  refine ⟨hs.tables h.toTables, fun i p hp hne hpres hh => ?_⟩
  obtain ⟨hh', hpres'⟩ := hs.huge i p hp hh
  exact h.plain i p hp hne (hpres' hpres) hh'

/-- **The tree stays whole**, so that calls may follow one another. -/
theorem Whole.mapInPgd (h : Whole s r) (v phys flags : Nat) : Whole (vmmMapPageInPgd s r v phys flags) r := by
  by_cases hv0 : v = 0
  · have hskip : vmmMapPageInPgd s r v phys flags = s := if_pos hv0
    rw [hskip]
    exact h
  · exact (h.toTables.mapInPgd_spec phys flags (pml4Idx_lt v) hv0).1.whole h

/-- **The page mapped leads to its frame, and every other page where it led before.** -/
theorem vmmMapPage_translates (s : State) (v phys flags : Nat) (h : Whole s (readCr3 s)) (hv : v < pteNx) (hv0 : v ≠ 0)
    (ha : CanAllocate (missing s.mem (readCr3 s) v) s) (w : Nat) :
    virtToPhysIn (vmmMapPage s v phys flags).mem (readCr3 s) w =
      if walkPage w = walkPage v then frameOf phys + w % pageSize else virtToPhysIn s.mem (readCr3 s) w := by
  have hroot : vmmMapPage s v phys flags = vmmMapPageInPgd s (readCr3 s) v phys flags := by
    rw [vmmMapPage_eq, if_neg (Nat.not_le.2 hv)]
  obtain ⟨hsteps, hset⟩ := h.toTables.mapInPgd_spec phys flags (pml4Idx_lt v) hv0
  rw [if_pos (h.toTables.obtainPt_some (pml4Idx_lt v) ha)] at hset
  rw [hroot, virtToPhysIn_leaf ((hsteps.whole h).noLarge w), virtToPhysIn_leaf (h.noLarge w), hset w (pml4Idx_lt w)]
  by_cases hw : walkPage w = walkPage v
  · rw [if_pos hw, if_pos hw, if_pos (present_pteFor phys flags)]
    exact congrArg (· + w % 0x1000) (frameOf_pteFor_mod phys flags)
  · rw [if_neg hw, if_neg hw]

/-- A root without entries at 1 MB, and free pages after it. -/
def emptyRoot : State := ⟨fun _ => 0, fun i => decide (1 ≤ i ∧ i < 8), 0x100000, 0x100000, 0x100000⟩

theorem emptyRoot_whole : Whole emptyRoot (readCr3 emptyRoot) := by
  have hfree : ¬emptyRoot.Free 0x100000 := by
    rintro ⟨i, -, hi, h⟩
    have h1 : 1 ≤ i ∧ i < 8 := of_decide_eq_true hi
    have h2 : 0x100000 = 0x100000 + i * 4096 := h
    omega
  refine ⟨⟨Layout.tree_empty (fun _ _ => rfl) ⟨0x100, rfl⟩ hfree, ⟨0x100, rfl⟩⟩, fun i p hp _ hpres => ?_⟩
  rw [Layout.entryAt_empty (fun _ _ => rfl) hp.entry] at hpres
  exact absurd hpres not_present_zero

/-- One page is mapped. -/
def mappedOnce : State := vmmMapPageInPgd emptyRoot (readCr3 emptyRoot) 0x400000 0x200000 pteUser

theorem mappedOnce_root : readCr3 mappedOnce = readCr3 emptyRoot := by decide +kernel

theorem mappedOnce_whole : Whole mappedOnce (readCr3 mappedOnce) := by
  rw [mappedOnce_root]
  exact emptyRoot_whole.mapInPgd 0x400000 0x200000 pteUser

theorem mappedOnce_missing : missing mappedOnce.mem (readCr3 mappedOnce) 0x40000000 = 2 := by decide +kernel

theorem mappedOnce_canAllocate : CanAllocate (missing mappedOnce.mem (readCr3 mappedOnce) 0x40000000) mappedOnce :=
  mappedOnce_missing ▸ .page (by decide +kernel) (.page (by decide +kernel) (.none _))

/-- A page mapped a gigabyte above, for which two tables are made. -/
theorem vmmMapPage_translates_second :
    virtToPhysIn (vmmMapPage mappedOnce 0x40000000 0x300000 pteUser).mem (readCr3 mappedOnce) 0x40000010 = 0x300010 ∧
      virtToPhysIn (vmmMapPage mappedOnce 0x40000000 0x300000 pteUser).mem (readCr3 mappedOnce) 0x400020 = 0x200020 := by
  have hv : 0x40000000 < pteNx := (by omega : 0x40000000 < 0x8000000000000000)
  have ht := vmmMapPage_translates mappedOnce 0x40000000 0x300000 pteUser mappedOnce_whole hv (by decide)
    mappedOnce_canAllocate
  exact ⟨(ht 0x40000010).trans (by decide +kernel), (ht 0x400020).trans (by decide +kernel)⟩

end Paging
end Pico
