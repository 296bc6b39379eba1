import Picomimi.PagingTree
/-!
# PagingSpaces — page-table entries, and several address spaces in one memory

Under `Space` the walkers that read a user page's entry all read its `leaf`.  `Spaces` is one memory that holds the tables
of several address spaces, no word of them in two: work on one of them leaves the others as they are (`Spaces.works`).
-/
namespace Pico
namespace Paging

open Lib

/-! ## The walkers -/

/-- `vmm_pte_for_virt_in`. -/
def vmmPteForVirtIn (mem : Nat → Nat) (pgd virt : Nat) : Nat :=
  if ¬Present (mem (pml4Slot pgd virt)) then 0
  else
    let e3 := mem (pdptSlot mem pgd virt)
    if ¬Present e3 then 0
    else if Huge e3 then e3
    else
      let e2 := mem (pdSlot mem pgd virt)
      if ¬Present e2 then 0
      else if Huge e2 then e2
      else mem (ptSlot mem pgd virt)

/-- `vmm_get_phys`.  It leaves the bits above the address in, `PTE_NX` too. -/
def vmmGetPhysIn (mem : Nat → Nat) (pml4 virt : Nat) : Nat :=
  if ¬Present (mem (pml4Slot pml4 virt)) then 0
  else
    let e3 := mem (pdptSlot mem pml4 virt)
    if ¬Present e3 then 0
    else if Huge e3 then alignDown e3 0x40000000 + virt % 0x40000000
    else
      let e2 := mem (pdSlot mem pml4 virt)
      if ¬Present e2 then 0
      else if Huge e2 then alignDown e2 0x200000 + virt % 0x200000
      else
        let e1 := mem (ptSlot mem pml4 virt)
        if ¬Present e1 then 0 else tableOf e1 + virt % 0x1000

variable {s s' : State} {r t i n v w phys flags : Nat}

/-- The walk down, entry by entry. -/
theorem leaf_eq (s : State) (r v : Nat) : leaf s r v =
    if ¬Present (s.mem (pml4Slot r v)) then 0
    else if ¬Present (s.mem (pdptSlot s.mem r v)) then 0
    else if ¬Present (s.mem (pdSlot s.mem r v)) then 0
    else s.mem (ptSlot s.mem r v) := by
  have h4 : userTree.tableAt s.mem r [pml4Idx v] = nextTable (s.mem (pml4Slot r v)) := rfl
  unfold leaf dirs
  by_cases p4 : Present (s.mem (pml4Slot r v))
  · rw [if_neg (not_not.2 p4)]
    rw [nextTable_of_present p4] at h4
    have h3 : userTree.tableAt s.mem r [pdptIdx v, pml4Idx v] = nextTable (s.mem (pdptSlot s.mem r v)) :=
      Layout.tableAt_of_parent h4
    by_cases p3 : Present (s.mem (pdptSlot s.mem r v))
    · rw [if_neg (not_not.2 p3)]
      rw [nextTable_of_present p3] at h3
      have h2 : userTree.tableAt s.mem r [pdIdx v, pdptIdx v, pml4Idx v] = nextTable (s.mem (pdSlot s.mem r v)) :=
        Layout.tableAt_of_parent h3
      by_cases p2 : Present (s.mem (pdSlot s.mem r v))
      · rw [if_neg (not_not.2 p2)]
        rw [nextTable_of_present p2] at h2
        exact Layout.entryAt_of_table h2
      · rw [if_pos p2]
        rw [nextTable_of_not_present p2] at h2
        exact Layout.entryAt_of_none h2
    · rw [if_pos p3]
      rw [nextTable_of_not_present p3] at h3
      apply Layout.entryAt_of_none
      rw [Layout.tableAt_cons, h3]
      rfl
  · rw [if_pos p4]
    rw [nextTable_of_not_present p4] at h4
    apply Layout.entryAt_of_none
    rw [Layout.tableAt_cons, Layout.tableAt_cons, h4]
    rfl

/-- No entry on the walk to a page is a large page's. -/
def NoLarge (mem : Nat → Nat) (r virt : Nat) : Prop :=
  Present (mem (pml4Slot r virt)) → Present (mem (pdptSlot mem r virt)) →
    ¬Huge (mem (pdptSlot mem r virt)) ∧ (Present (mem (pdSlot mem r virt)) → ¬Huge (mem (pdSlot mem r virt)))

theorem Space.noLarge (h : Space s r) (hv : v < userTop) : NoLarge s.mem r v := by
  intro p4 p3
  have h4 : userTree.tableAt s.mem r [pml4Idx v] = some (tableOf (s.mem (pml4Slot r v))) := nextTable_of_present p4
  have h3 : userTree.tableAt s.mem r [pdptIdx v, pml4Idx v] = some (tableOf (s.mem (pdptSlot s.mem r v))) :=
    (Layout.tableAt_of_parent h4).trans (nextTable_of_present p3)
  have hp3 := h.plain _ _ (path_pdpt hv)
  have hp2 := h.plain _ _ (path_dirs hv)
  rw [Layout.entryAt_of_table h4] at hp3
  rw [Layout.entryAt_of_table h3] at hp2
  exact ⟨hp3, fun _ => hp2⟩

theorem not_present_zero : ¬Present 0 := by decide

section NoLarge

variable (h : NoLarge s.mem r v)

include h

theorem vmmPteForVirtIn_leaf : vmmPteForVirtIn s.mem r v = leaf s r v := by
  rw [leaf_eq]
  unfold vmmPteForVirtIn
  dsimp only
  by_cases p4 : Present (s.mem (pml4Slot r v))
  · by_cases p3 : Present (s.mem (pdptSlot s.mem r v))
    · obtain ⟨q3, q2⟩ := h p4 p3
      by_cases p2 : Present (s.mem (pdSlot s.mem r v))
      · rw [if_neg q3, if_neg (q2 p2)]
      · rw [if_neg q3, if_pos p2, if_pos p2]
    · rw [if_pos p3, if_pos p3]
  · rw [if_pos p4, if_pos p4]

/-- **The walk of the two translations**, whichever way they take the frame's address out of the entry. -/
theorem translate_leaf (frame : Nat → Nat) :
    (if ¬Present (s.mem (pml4Slot r v)) then 0
      else if ¬Present (s.mem (pdptSlot s.mem r v)) then 0
      else if Huge (s.mem (pdptSlot s.mem r v)) then alignDown (s.mem (pdptSlot s.mem r v)) 0x40000000 + v % 0x40000000
      else if ¬Present (s.mem (pdSlot s.mem r v)) then 0
      else if Huge (s.mem (pdSlot s.mem r v)) then alignDown (s.mem (pdSlot s.mem r v)) 0x200000 + v % 0x200000
      else if ¬Present (s.mem (ptSlot s.mem r v)) then 0 else frame (s.mem (ptSlot s.mem r v)) + v % 0x1000) =
      if Present (leaf s r v) then frame (leaf s r v) + v % 0x1000 else 0 := by
  rw [leaf_eq]
  by_cases p4 : Present (s.mem (pml4Slot r v))
  · rw [if_neg (not_not.2 p4), if_neg (not_not.2 p4)]
    by_cases p3 : Present (s.mem (pdptSlot s.mem r v))
    · obtain ⟨q3, q2⟩ := h p4 p3
      rw [if_neg (not_not.2 p3), if_neg (not_not.2 p3), if_neg q3]
      by_cases p2 : Present (s.mem (pdSlot s.mem r v))
      · rw [if_neg (not_not.2 p2), if_neg (not_not.2 p2), if_neg (q2 p2), ite_not]
      · rw [if_pos p2, if_pos p2, if_neg not_present_zero]
    · rw [if_pos p3, if_pos p3, if_neg not_present_zero]
  · rw [if_pos p4, if_pos p4, if_neg not_present_zero]

theorem vmmGetPhysIn_leaf :
    vmmGetPhysIn s.mem r v = if Present (leaf s r v) then tableOf (leaf s r v) + v % 0x1000 else 0 :=
  translate_leaf h tableOf

theorem virtToPhysIn_leaf :
    virtToPhysIn s.mem r v = if Present (leaf s r v) then frameOf (leaf s r v) + v % 0x1000 else 0 :=
  translate_leaf h frameOf

end NoLarge

theorem Space.vmmPteForVirtIn_eq (h : Space s r) (hv : v < userTop) : vmmPteForVirtIn s.mem r v = leaf s r v :=
  vmmPteForVirtIn_leaf (h.noLarge hv)

theorem Space.vmmGetPhysIn_eq (h : Space s r) (hv : v < userTop) :
    vmmGetPhysIn s.mem r v = if Present (leaf s r v) then tableOf (leaf s r v) + v % 0x1000 else 0 :=
  vmmGetPhysIn_leaf (h.noLarge hv)

theorem Space.virtToPhysIn_eq (h : Space s r) (hv : v < userTop) :
    virtToPhysIn s.mem r v = if Present (leaf s r v) then frameOf (leaf s r v) + v % 0x1000 else 0 :=
  virtToPhysIn_leaf (h.noLarge hv)

/-! ## The bits of an entry -/

/-- `PTE_WRITE` is set. -/
def Writable (e : Nat) : Prop := e / pteWrite % 2 = 1

/-- `PTE_NX` is set. -/
def NoExec (e : Nat) : Prop := e / pteNx % 2 = 1

instance (e : Nat) : Decidable (Writable e) := inferInstanceAs (Decidable (_ = _))
instance (e : Nat) : Decidable (NoExec e) := inferInstanceAs (Decidable (_ = _))

theorem tableOf_of_dvd (h : pageSize ∣ phys) : tableOf phys = phys := Nat.div_mul_cancel h

theorem writable_iff {e : Nat} : Writable e ↔ e.testBit 1 = true := by
  rw [Nat.testBit_eq_decide_div_mod_eq, decide_eq_true_iff]
  rfl

theorem noExec_iff {e : Nat} : NoExec e ↔ e.testBit 63 = true := by
  rw [Nat.testBit_eq_decide_div_mod_eq, decide_eq_true_iff]
  rfl

theorem present_iff {e : Nat} : Present e ↔ e.testBit 0 = true := by
  rw [Nat.testBit_eq_decide_div_mod_eq, decide_eq_true_iff, Nat.pow_zero, Nat.div_one]
  rfl

theorem testBit_tableOf (phys i : Nat) (h : i < 12) : (tableOf phys).testBit i = false := by
  have h12 : tableOf phys = phys / 0x1000 * 2 ^ 12 := rfl
  rw [h12, Nat.testBit_mul_two_pow, decide_eq_false (Nat.not_le.2 h), Bool.false_and]

/-- **The low bits of a stored entry are those of the flags**, but that it is present. -/
theorem testBit_pteFor (phys flags i : Nat) (h : i < 12) : (pteFor phys flags).testBit i = (flags.testBit i || i == 0) := by
  unfold pteFor
  have hfff : Nat.testBit 0x0FFF i = true := by decide +revert
  have hnx : Nat.testBit pteNx i = false := by decide +revert
  have hp : Nat.testBit ptePresent i = (i == 0) := by decide +revert
  rw [Nat.testBit_or, Nat.testBit_or, Nat.testBit_or, testBit_tableOf phys i h, Nat.testBit_and, Nat.testBit_and, hfff, hnx,
    hp, Bool.and_true, Bool.and_false, Bool.or_false, Bool.false_or]

theorem present_pteFor (phys flags : Nat) : Present (pteFor phys flags) := by
  rw [present_iff, testBit_pteFor phys flags 0 (by decide), beq_self_eq_true, Bool.or_true]

theorem writable_pteFor (phys flags : Nat) : Writable (pteFor phys flags) ↔ Writable flags := by
  rw [writable_iff, writable_iff, testBit_pteFor phys flags 1 (by decide)]
  exact iff_of_eq (congrArg (· = true) (Bool.or_false _))

/-- An address below `2^52`, with no bit above it. -/
theorem noExec_pteFor (flags : Nat) (h : phys < 0x10000000000000) : NoExec (pteFor phys flags) ↔ NoExec flags := by
  have ht : (tableOf phys).testBit 63 = false :=
    Nat.testBit_lt_two_pow (Nat.lt_of_le_of_lt (alignDown_le _ _) (Nat.lt_trans h (by decide)))
  have hfff : Nat.testBit 0x0FFF 63 = false := by decide
  have hnx : Nat.testBit pteNx 63 = true := by decide
  have hp : Nat.testBit ptePresent 63 = false := by decide
  unfold pteFor
  rw [noExec_iff, noExec_iff, Nat.testBit_or, Nat.testBit_or, Nat.testBit_or, ht, Nat.testBit_and, Nat.testBit_and, hfff, hnx,
    hp, Bool.and_true, Bool.and_false, Bool.or_false, Bool.false_or, Bool.false_or]

/-- The frame of a stored entry is that of the address. -/
theorem frameOf_pteFor_mod (phys flags : Nat) : frameOf (pteFor phys flags) = frameOf phys := by
  have hq : pteFor phys flags / 2 ^ 12 % 2 ^ 40 = phys / 0x1000 % 2 ^ 40 := by
    have ht : tableOf phys / 2 ^ 12 = phys / 0x1000 := Nat.mul_div_cancel _ (by decide)
    have hfff : (0x0FFF : Nat) / 2 ^ 12 = 0 := by decide
    have hnx : pteNx / 2 ^ 12 % 2 ^ 40 = 0 := by decide
    have hp : ptePresent / 2 ^ 12 = 0 := by decide
    unfold pteFor
    rw [Nat.or_div_two_pow, Nat.or_div_two_pow, Nat.or_div_two_pow, ht, Nat.and_div_two_pow, hfff, Nat.and_zero, Nat.or_zero, hp,
      Nat.or_zero, Nat.or_mod_two_pow, Nat.and_div_two_pow, Nat.and_mod_two_pow, hnx, Nat.and_zero, Nat.or_zero]
  exact congrArg (· * 0x1000) hq

theorem frameOf_of_lt (hd : pageSize ∣ phys) (h : phys < 0x10000000000000) : frameOf phys = phys := by
  obtain ⟨q, rfl⟩ := hd
  unfold frameOf pageSize at *
  omega

/-- The page of a stored entry. -/
theorem frameOf_pteFor (flags : Nat) (hd : pageSize ∣ phys) (h : phys < 0x10000000000000) :
    frameOf (pteFor phys flags) = phys := (frameOf_pteFor_mod phys flags).trans (frameOf_of_lt hd h)

/-! ## Several address spaces -/

/-- **The tables of the address spaces with the roots `R`**, no word of them in two. -/
structure Spaces (s : State) (R : Nat → Prop) : Prop where
  space : ∀ r, R r → Space s r
  apart : ∀ r r', R r → R r' → r ≠ r' → ∀ a, userTree.Owned s.mem r a → ¬userTree.Owned s.mem r' a
  base : pageSize ∣ s.bitmapBase
  top : s.bitmapBase + bitmapPages * pageSize ≤ 0x10000000000000

/-- **A free page is taken and written.** -/
structure Filled (s s' : State) (n : Nat) : Prop where
  free : s.Free n
  still : ∀ t, s'.Free t → s.Free t ∧ t ≠ n
  mem : ∀ a, alignDown a pageSize ≠ n → s'.mem a = s.mem a
  base : s'.bitmapBase = s.bitmapBase
  kernelPml4 : s'.kernelPml4 = s.kernelPml4
  cr3 : s'.cr3 = s.cr3

theorem Taken.filled (h : Taken s s' n) : Filled s s' n :=
  ⟨h.free, h.still, fun a _ => by rw [h.mem], h.base, h.kernelPml4, h.cr3⟩

theorem Filled.not_free (h : Filled s s' n) : ¬s'.Free n := fun hc => (h.still n hc).2 rfl

theorem Filled.mem_of_not_free (h : Filled s s' n) {a : Nat} (ha : ¬s.Free (alignDown a pageSize)) : s'.mem a = s.mem a :=
  h.mem a fun hc => ha (hc ▸ h.free)

theorem Space.filled (h : Space s r) (hn : Filled s s' n) : Works s s' r ∧ SameLeaves s s' r := by
  refine ⟨h.works_data (fun t ht => (hn.still t ht).1) (fun a => hn.mem_of_not_free) hn.base hn.kernelPml4 hn.cr3,
    fun w hw => ?_⟩
  exact Layout.entryAt_congr (fun a ha => hn.mem_of_not_free (h.tree.not_free ha)) (entry_leaf hw)

section Spaces

variable {R : Nat → Prop} (h : Spaces s R)

include h

/-- Work on one address space leaves the words of another. -/
theorem Spaces.same (hr : R r) (hw : Works s s' r) {r' : Nat} (hr' : R r') (hne : r' ≠ r) :
    ∀ a, userTree.Owned s.mem r' a → s'.mem a = s.mem a :=
  hw.grows.other (h.space r' hr').tree (h.apart r' r hr' hr hne)

theorem Spaces.sameLeaves (hr : R r) (hw : Works s s' r) {r' : Nat} (hr' : R r') (hne : r' ≠ r) : SameLeaves s s' r' :=
  fun _ hv => Layout.entryAt_congr (h.same hr hw hr' hne) (entry_leaf hv)

/-- An address space none of whose words changes. -/
theorem Spaces.keep {r' : Nat} (hr' : R r') (hm : ∀ a, userTree.Owned s.mem r' a → s'.mem a = s.mem a)
    (hf : ∀ t, s'.Free t → s.Free t) (hb : s'.bitmapBase = s.bitmapBase) : Space s' r' := by
  have hs := h.space r' hr'
  refine ⟨hs.tree.congr hm hf, fun i p hp => ?_, hb ▸ hs.base, hb ▸ hs.top⟩
  rw [Layout.entryAt_congr hm hp.entry]
  exact hs.plain i p hp

/-- **Work on one address space keeps them all.** -/
theorem Spaces.works (hr : R r) (hw : Works s s' r) : Spaces s' R := by
  have hsame : ∀ {r'}, R r' → r' ≠ r → ∀ a, userTree.Owned s.mem r' a → s'.mem a = s.mem a :=
    fun hr' hne => h.same hr hw hr' hne
  have howned : ∀ r', R r' → r' ≠ r → ∀ a, userTree.Owned s'.mem r' a ↔ userTree.Owned s.mem r' a :=
    fun r' hr' hne a => Layout.owned_congr (hsame hr' hne)
  -- a word of another tree is neither a word of `r` nor free
  have hother : ∀ r', R r' → r' ≠ r → ∀ a, userTree.Owned s'.mem r a → ¬userTree.Owned s'.mem r' a := by
    intro r' hr' hne a ha hc
    rw [howned r' hr' hne] at hc
    rcases hw.grows.owned a ha with h1 | h1
    · exact h.apart r r' hr hr' (Ne.symm hne) a h1 hc
    · exact (h.space r' hr').tree.not_free hc h1
  refine ⟨fun r' hr' => ?_, fun r₁ r₂ h1 h2 hne a ha hc => ?_, hw.base ▸ h.base, hw.base ▸ h.top⟩
  · by_cases hne : r' = r
    · subst hne
      exact hw.space (h.space r' hr)
    · exact h.keep hr' (hsame hr' hne) hw.grows.still hw.base
  · by_cases e1 : r₁ = r
    · subst e1
      exact hother r₂ h2 (Ne.symm hne) a ha hc
    · by_cases e2 : r₂ = r
      · subst e2
        exact hother r₁ h1 e1 a hc ha
      · exact h.apart r₁ r₂ h1 h2 hne a ((howned r₁ h1 e1 a).1 ha) ((howned r₂ h2 e2 a).1 hc)

/-- **A page taken and written keeps them all**, and may be the root of one more. -/
theorem Spaces.newRoot (hn : Filled s s' n) (hz : ∀ i, i < 256 → s'.mem (slot n i) = 0) :
    Spaces s' fun r => R r ∨ r = n := by
  have hd : pageSize ∣ n := by
    obtain ⟨i, -, -, rfl⟩ := hn.free
    exact Nat.dvd_add h.base ⟨i, Nat.mul_comm _ _⟩
  have hsame : ∀ r, R r → ∀ a, userTree.Owned s.mem r a → s'.mem a = s.mem a :=
    fun r hr a ha => hn.mem_of_not_free ((h.space r hr).tree.not_free ha)
  have hz' : ∀ i, i < userTree.first → s'.mem (userTree.slot n i) = 0 := hz
  have hapart : ∀ r, R r → ∀ a, userTree.Owned s'.mem r a → ¬userTree.Owned s'.mem n a := by
    intro r hr a ha hc
    rw [Layout.owned_congr (hsame r hr)] at ha
    refine (h.space r hr).tree.not_free ha ?_
    rw [Layout.home_of_owned_empty hz' hd hc]
    exact hn.free
  refine ⟨?_, ?_, hn.base ▸ h.base, hn.base ▸ h.top⟩
  · rintro r (hr | rfl)
    · exact h.keep hr (hsame r hr) (fun t ht => (hn.still t ht).1) hn.base
    · refine ⟨Layout.tree_empty hz' hd hn.not_free, fun i p hp => ?_, hn.base ▸ h.base, hn.base ▸ h.top⟩
      rw [Layout.entryAt_empty hz' hp.entry]
      decide
  · rintro r r' (hr | rfl) (hr' | rfl) hne a ha hc
    · rw [Layout.owned_congr (hsame r hr)] at ha
      rw [Layout.owned_congr (hsame r' hr')] at hc
      exact h.apart r r' hr hr' hne a ha hc
    · exact hapart r hr a ha hc
    · exact hapart r' hr' a hc ha
    · exact hne rfl

theorem Spaces.mono {R' : Nat → Prop} (hR : ∀ r, R' r → R r) : Spaces s R' :=
  ⟨fun r hr => h.space r (hR r hr), fun r r' hr hr' => h.apart r r' (hR r hr) (hR r' hr'), h.base, h.top⟩

end Spaces

/-- A change that leaves the words of every tree. -/
theorem Spaces.data {R : Nat → Prop} (h : Spaces s R) (hm : ∀ a, ¬s.Free (alignDown a pageSize) → s'.mem a = s.mem a)
    (hf : ∀ t, s'.Free t → s.Free t) (hb : s'.bitmapBase = s.bitmapBase) : Spaces s' R := by
  have hsame : ∀ r, R r → ∀ a, userTree.Owned s.mem r a → s'.mem a = s.mem a :=
    fun r hr a ha => hm a ((h.space r hr).tree.not_free ha)
  refine ⟨fun r hr => h.keep hr (hsame r hr) hf hb, fun r r' hr hr' hne a ha hc => ?_, hb ▸ h.base, hb ▸ h.top⟩
  rw [Layout.owned_congr (hsame r hr)] at ha
  rw [Layout.owned_congr (hsame r' hr')] at hc
  exact h.apart r r' hr hr' hne a ha hc

/-- The pages of a new address space are not mapped. -/
theorem leaf_newRoot (hz : ∀ i, i < 256 → s.mem (slot n i) = 0) (hv : v < userTop) : leaf s n v = 0 :=
  Layout.entryAt_empty hz (entry_leaf hv)

/-! ## Steps -/

theorem vmmMapPage_user (hv : v < userTop) (s : State) (phys flags : Nat) :
    vmmMapPage s v phys flags = vmmMapPageInPgd s (readCr3 s) v phys flags := by
  have hnx : ¬pteNx ≤ v := Nat.not_le.2 (Nat.lt_trans hv (by decide))
  rw [vmmMapPage_eq, if_neg hnx]

theorem vmmMapPageInPgd_works (h : Space s r) (hv : v < userTop) : Works s (vmmMapPageInPgd s r v phys flags) r := by
  by_cases hv0 : v = 0
  · have hskip : vmmMapPageInPgd s r v phys flags = s := if_pos hv0
    rw [hskip]
    exact h.refl
  · exact (mapInPgd_spec phys flags h hv hv0).1

theorem vmmMapPage_works (phys flags : Nat) (h : Space s r) (hc : readCr3 s = r) (hv : v < userTop) :
    Works s (vmmMapPage s v phys flags) r := by
  rw [vmmMapPage_user hv, hc]
  exact vmmMapPageInPgd_works h hv

theorem Works.readCr3 (h : Works s s' r) (hc : readCr3 s = r) : readCr3 s' = r :=
  (congrArg tableOf h.cr3).trans hc

/-- What `pmm_alloc_page` answers: nothing, and the state is as good as before; or a page. -/
theorem pmmAllocPage_cases (h : Space s r) (ha : pmmAllocPage s = (n, s')) :
    (n = 0 ∧ Works s s' r ∧ SameLeaves s s' r) ∨ Taken s s' n := by
  rcases pmmAllocPage_spec ha with ⟨rfl, rfl⟩ | hn
  · exact .inl ⟨rfl, h.refl, fun _ _ => rfl⟩
  · exact .inr hn

/-- Steps that each work on the tree of `r`. -/
theorem foldl_works {α : Type} {f : State → α → State} : ∀ {l : List α} {s : State}, Space s r →
    (∀ a ∈ l, ∀ t, Space t r → t.cr3 = s.cr3 → Works t (f t a) r) → Works s (l.foldl f s) r
  | [], _, h, _ => h.refl
  | a :: l, s, h, hf => by
    have h1 := hf a List.mem_cons_self s h rfl
    exact h1.trans (foldl_works (h1.space h) fun b hb t ht hc => hf b (List.mem_cons_of_mem a hb) t ht (hc.trans h1.cr3))

/-! ## `mm_alloc` -/

/-- The root `mm_alloc` makes, with the kernel's half of `kernel_pml4`; 0 when there is no page for it. -/
def mmAllocPgd (s : State) : Nat × State :=
  match pmmAllocPage s with
  | (0, s) => (0, s)
  | (pgd, s) =>
    (pgd,
      { s with
        mem := fun a =>
          if pgd + 2048 ≤ a ∧ a < pgd + pageSize then s.mem (s.kernelPml4 + (a - pgd))
          else if pgd ≤ a ∧ a < pgd + pageSize then 0
          else s.mem a })

theorem alignDown_eq_of_dvd {a : Nat} (hd : pageSize ∣ n) (h1 : n ≤ a) (h2 : a < n + pageSize) : alignDown a pageSize = n := by
  obtain ⟨q, rfl⟩ := hd
  unfold alignDown pageSize at *
  omega

theorem mmAllocPgd_spec (hb : pageSize ∣ s.bitmapBase) (h : mmAllocPgd s = (n, s')) :
    (n = 0 ∧ (s' = s ∨ Taken s s' 0)) ∨ (Filled s s' n ∧ ∀ i, i < 256 → s'.mem (slot n i) = 0) := by
  unfold mmAllocPgd at h
  rcases ha : pmmAllocPage s with ⟨m, s₁⟩
  rw [ha] at h
  have hspec := pmmAllocPage_spec ha
  cases m with
  | zero =>
    cases h
    exact .inl ⟨rfl, hspec.imp And.right id⟩
  | succ m =>
    cases h
    have hn : Taken s s₁ (m + 1) := hspec.resolve_left fun hc => Nat.succ_ne_zero m hc.1
    have hd : pageSize ∣ m + 1 := by
      obtain ⟨i, -, -, hi⟩ := hn.free
      exact hi ▸ Nat.dvd_add hb ⟨i, Nat.mul_comm _ _⟩
    refine .inr ⟨⟨hn.free, hn.still, fun a ha => ?_, hn.base, hn.kernelPml4, hn.cr3⟩, fun i hi => ?_⟩
    · dsimp only
      rw [if_neg, if_neg, hn.mem]
      · exact fun hc => ha (alignDown_eq_of_dvd hd hc.1 hc.2)
      · exact fun hc => ha (alignDown_eq_of_dvd hd (by omega) hc.2)
    · dsimp only [slot]
      rw [if_neg (by omega), if_pos]
      unfold pageSize
      omega

end Paging
end Pico
