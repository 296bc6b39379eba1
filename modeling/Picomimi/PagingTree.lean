import Picomimi.Lib.Radix
import Picomimi.Paging
import Mathlib.Tactic.Common
/-!
# PagingTree — the user half of an address space

The tables below the first 256 entries of a root are a `Layout.Tree` of three levels under it; what the steps down do is
proved for any number of entries of the root (`Tables`).  `Space` adds what the walkers rely on: no entry above the last
level is a large page's.  `vmm_map_page` and `vmm_map_page_in_pgd` take the same
three steps down, making tables on the way, and store one entry (`mapInPgd_spec`); when a page for a table is missing they
return without a word, and no entry changes.
-/
namespace Pico
namespace Paging

open Lib

/-! ## Entries -/

theorem or_seven {n : Nat} (h : pageSize ∣ n) : n ||| ptePresent ||| pteWrite ||| pteUser = n + 7 := by
  obtain ⟨q, rfl⟩ := h
  have h7 : ptePresent ||| (pteWrite ||| pteUser) = 7 := by decide
  rw [Nat.or_assoc, Nat.or_assoc, h7]
  exact (Nat.two_pow_add_eq_or_of_lt (i := 12) (by decide) q).symm

theorem tableOf_add_seven {n : Nat} (h : pageSize ∣ n) : tableOf (n + 7) = n := by
  obtain ⟨q, rfl⟩ := h
  unfold tableOf alignDown pageSize
  omega

theorem present_add_seven {n : Nat} (h : pageSize ∣ n) : Present (n + 7) := by
  obtain ⟨q, rfl⟩ := h
  unfold Present pageSize
  omega

theorem not_huge_add_seven {n : Nat} (h : pageSize ∣ n) : ¬Huge (n + 7) := by
  obtain ⟨q, rfl⟩ := h
  unfold Huge pteHuge pageSize
  omega

/-- `entry | PTE_USER` leads where `entry` does. -/
theorem tableOf_or_user (e : Nat) : tableOf (e ||| pteUser) = tableOf e := by
  have h : (e ||| pteUser) / 2 ^ 12 = e / 2 ^ 12 := by
    rw [Nat.or_div_two_pow]
    exact Nat.or_zero _
  exact congrArg (· * 0x1000) h

theorem present_or_user (e : Nat) : Present (e ||| pteUser) ↔ Present e := by
  have h : (e ||| pteUser) % 2 ^ 1 = e % 2 ^ 1 := by
    rw [Nat.or_mod_two_pow]
    exact Nat.or_zero _
  exact Eq.congr_left h

theorem huge_or_user (e : Nat) : Huge (e ||| pteUser) ↔ Huge e := by
  have h : (e ||| pteUser) / 2 ^ 7 = e / 2 ^ 7 := by
    rw [Nat.or_div_two_pow]
    exact Nat.or_zero _
  exact Eq.congr_left (congrArg (· % 2) h)

/-! ## The tree -/

/-- The table an entry leads to. -/
def nextTable (e : Nat) : Option Nat := if Present e then some (tableOf e) else none

/-- The user half: 256 entries of the root, and three levels of tables below it. -/
def userTree : Layout where
  slot := slot
  home a := alignDown a pageSize
  next := nextTable
  IsTable t := pageSize ∣ t
  width := 512
  first := 256
  depth := 3
  first_le := by decide
  home_slot t i := by
    rintro ⟨q, rfl⟩ hi
    unfold slot alignDown pageSize
    omega
  slot_inj t i j _ _ _ h := by
    unfold slot at h
    omega
  isTable_next e t h := by
    unfold nextTable at h
    split at h
    · exact Option.some.inj h ▸ dvd_alignDown _ _
    · cases h
  next_zero := rfl

/-- A page that `pmm_alloc_page` may return. -/
def State.Free (s : State) (t : Nat) : Prop :=
  ∃ i, i < bitmapPages ∧ s.pageBitmap i = true ∧ t = s.bitmapBase + i * pageSize

/-- The first `first` entries of a root, and three levels of tables below it: `userTree` has 256, a whole root 512. -/
def treeOf {first : Nat} (hf : first ≤ 512) : Layout := { userTree with first := first, first_le := hf }

theorem userFirst : 256 ≤ 512 := by decide

/-- **The tables below the first entries of the root `r`**, none of them a page that may be handed out. -/
structure Tables {first : Nat} (hf : first ≤ 512) (s : State) (r : Nat) : Prop where
  tree : (treeOf hf).Tree s.Free s.mem r
  base : pageSize ∣ s.bitmapBase

/-- **The user half of the address space with the root `r`.** -/
structure Space (s : State) (r : Nat) : Prop where
  tree : userTree.Tree s.Free s.mem r
  plain : ∀ i p, userTree.Path (i :: p) → ¬Huge (userTree.entryAt s.mem r i p)
  base : pageSize ∣ s.bitmapBase
  top : s.bitmapBase + bitmapPages * pageSize ≤ 0x10000000000000

/-- **Work on the user half of `r`.** -/
structure Works (s s' : State) (r : Nat) : Prop where
  grows : userTree.Grows s.Free s'.Free s.mem s'.mem r
  plain : ∀ i p, userTree.Path (i :: p) → ¬Huge (userTree.entryAt s'.mem r i p)
  base : s'.bitmapBase = s.bitmapBase
  kernelPml4 : s'.kernelPml4 = s.kernelPml4
  cr3 : s'.cr3 = s.cr3

/-- **Steps down from `r`**, which make tables and no entry of a large page. -/
structure Steps {first : Nat} (hf : first ≤ 512) (s s' : State) (r : Nat) : Prop where
  grows : (treeOf hf).Grows s.Free s'.Free s.mem s'.mem r
  huge : ∀ i p, (treeOf hf).Path (i :: p) → Huge ((treeOf hf).entryAt s'.mem r i p) →
    Huge ((treeOf hf).entryAt s.mem r i p) ∧
      (Present ((treeOf hf).entryAt s'.mem r i p) → Present ((treeOf hf).entryAt s.mem r i p))
  base : s'.bitmapBase = s.bitmapBase
  kernelPml4 : s'.kernelPml4 = s.kernelPml4
  cr3 : s'.cr3 = s.cr3

variable {s s' : State} {r t i n v phys flags first : Nat} {hf : first ≤ 512} {p : List Nat} {mem : Nat → Nat}

theorem Space.refl (h : Space s r) : Works s s r := ⟨h.tree.refl, h.plain, rfl, rfl, rfl⟩

theorem Works.trans {s'' : State} (h : Works s s' r) (h' : Works s' s'' r) : Works s s'' r :=
  ⟨h.grows.trans h'.grows, h'.plain, h'.base.trans h.base, h'.kernelPml4.trans h.kernelPml4, h'.cr3.trans h.cr3⟩

theorem Works.space (h : Works s s' r) (hs : Space s r) : Space s' r :=
  ⟨h.grows.tree, h.plain, h.base ▸ hs.base, h.base ▸ hs.top⟩

theorem Tables.refl (h : Tables hf s r) : Steps hf s s r := ⟨h.tree.refl, fun _ _ _ hh => ⟨hh, id⟩, rfl, rfl, rfl⟩

theorem Steps.trans {s'' : State} (h : Steps hf s s' r) (h' : Steps hf s' s'' r) : Steps hf s s'' r := by
  refine ⟨h.grows.trans h'.grows, fun i p hp hh => ?_, h'.base.trans h.base, h'.kernelPml4.trans h.kernelPml4,
    h'.cr3.trans h.cr3⟩
  obtain ⟨h1, hp1⟩ := h'.huge i p hp hh
  obtain ⟨h2, hp2⟩ := h.huge i p hp h1
  exact ⟨h2, fun hc => hp2 (hp1 hc)⟩

theorem Steps.tables (h : Steps hf s s' r) (hs : Tables hf s r) : Tables hf s' r := ⟨h.grows.tree, h.base ▸ hs.base⟩

theorem Space.tables (h : Space s r) : Tables userFirst s r := ⟨h.tree, h.base⟩

/-- Steps down on the user half. -/
theorem Steps.works (h : Steps userFirst s s' r) (hs : Space s r) : Works s s' r :=
  ⟨h.grows, fun i p hp hh => hs.plain i p hp (h.huge i p hp hh).1, h.base, h.kernelPml4, h.cr3⟩

/-- A walk does not see how many entries of the root count. -/
theorem tableAt_treeOf : ∀ p, (treeOf hf).tableAt mem r p = userTree.tableAt mem r p
  | [] => rfl
  | i :: p => by
    rw [Layout.tableAt_cons, Layout.tableAt_cons, tableAt_treeOf p]
    rfl

theorem entryAt_treeOf : (treeOf hf).entryAt mem r i p = userTree.entryAt mem r i p := by
  unfold Layout.entryAt
  rw [tableAt_treeOf]
  rfl

/-! ## `pmm_alloc_page` -/

theorem firstFree_spec {free : Nat → Bool} : ∀ {m i j : Nat}, firstFree free m i = some j → j < i + m ∧ free j = true
  | m + 1, i, j, h => by
    unfold firstFree at h
    by_cases hi : free i = true
    · rw [if_pos hi] at h
      cases h
      exact ⟨by omega, hi⟩
    · rw [if_neg hi] at h
      obtain ⟨h1, h2⟩ := firstFree_spec h
      exact ⟨by omega, h2⟩

theorem firstFree_none {free : Nat → Bool} : ∀ {m i j : Nat}, firstFree free m i = none → i ≤ j → j < i + m → free j = false
  | 0, _, _, _, h1, h2 => by omega
  | m + 1, i, j, h, h1, h2 => by
    unfold firstFree at h
    by_cases hi : free i = true
    · rw [if_pos hi] at h
      cases h
    · rw [if_neg hi] at h
      by_cases hji : j = i
      · exact hji ▸ Bool.eq_false_iff.2 hi
      · exact firstFree_none h (by omega) (by omega)

/-- **A page returned was free and is no more**; nothing else changes. -/
structure Taken (s s' : State) (n : Nat) : Prop where
  free : s.Free n
  still : ∀ t, s'.Free t → s.Free t ∧ t ≠ n
  mem : s'.mem = s.mem
  base : s'.bitmapBase = s.bitmapBase
  kernelPml4 : s'.kernelPml4 = s.kernelPml4
  cr3 : s'.cr3 = s.cr3

/-- **No page is free, or one is taken.** -/
theorem pmmAllocPage_taken (h : pmmAllocPage s = (n, s')) : ((∀ t, ¬s.Free t) ∧ n = 0 ∧ s' = s) ∨ Taken s s' n := by
  unfold pmmAllocPage at h
  cases hf : firstFree s.pageBitmap bitmapPages 0 with
  | none =>
    rw [hf] at h
    cases h
    refine .inl ⟨?_, rfl, rfl⟩
    rintro t ⟨i, hi, hfree, -⟩
    rw [firstFree_none hf (Nat.zero_le i) (by omega)] at hfree
    cases hfree
  | some i =>
    rw [hf] at h
    cases h
    obtain ⟨hi, hfree⟩ := firstFree_spec hf
    refine .inr ⟨⟨i, by omega, hfree, rfl⟩, fun t ht => ?_, rfl, rfl, rfl, rfl⟩
    obtain ⟨j, hj, hjf, rfl⟩ := ht
    by_cases hji : j = i
    · subst hji
      simp only [Function.update_self, Bool.false_eq_true] at hjf
    · simp only [Function.update_of_ne hji] at hjf
      refine ⟨⟨j, hj, hjf, rfl⟩, fun hc => hji ?_⟩
      dsimp only [pageSize] at hc
      omega

theorem pmmAllocPage_spec (h : pmmAllocPage s = (n, s')) : (n = 0 ∧ s' = s) ∨ Taken s s' n :=
  (pmmAllocPage_taken h).imp_left And.right

theorem Tables.dvd_of_free (h : Tables hf s r) (hn : s.Free n) : pageSize ∣ n := by
  obtain ⟨i, -, -, rfl⟩ := hn
  exact Nat.dvd_add h.base ⟨i, Nat.mul_comm _ _⟩

theorem Space.dvd_of_free (h : Space s r) (hn : s.Free n) : pageSize ∣ n := h.tables.dvd_of_free hn

theorem Space.lt_of_free (h : Space s r) (hn : s.Free n) : n < 0x10000000000000 := by
  obtain ⟨i, hi, -, rfl⟩ := hn
  have ht := h.top
  unfold bitmapPages pageSize at *
  omega

/-- A page taken, and changes of taken pages. -/
theorem Space.works_data (h : Space s r) (hf : ∀ t, s'.Free t → s.Free t)
    (hm : ∀ a, ¬s.Free (alignDown a pageSize) → s'.mem a = s.mem a) (hb : s'.bitmapBase = s.bitmapBase)
    (hk : s'.kernelPml4 = s.kernelPml4) (hc : s'.cr3 = s.cr3) : Works s s' r := by
  refine ⟨h.tree.grows_data hf hm, fun i p hp => ?_, hb, hk, hc⟩
  rw [Layout.entryAt_congr (fun a ha => hm a (h.tree.not_free ha)) hp.entry]
  exact h.plain i p hp

theorem Space.works_taken (h : Space s r) (hn : Taken s s' n) : Works s s' r :=
  h.works_data (fun t ht => (hn.still t ht).1) (fun a _ => by rw [hn.mem]) hn.base hn.kernelPml4 hn.cr3

theorem Tables.steps_taken (h : Tables hf s r) (hn : Taken s s' n) : Steps hf s s' r := by
  refine ⟨h.tree.grows_data (fun t ht => (hn.still t ht).1) fun a _ => by rw [hn.mem], fun i p _ hh => ?_, hn.base,
    hn.kernelPml4, hn.cr3⟩
  rw [hn.mem] at hh ⊢
  exact ⟨hh, id⟩

/-! ## User pages -/

/-- The user's addresses are below this one. -/
def userTop : Nat := 0x800000000000

/-- The path to the page table of a page. -/
def dirs (virt : Nat) : List Nat := [pdIdx virt, pdptIdx virt, pml4Idx virt]

/-- The page-table entry of a page, 0 where there is no page table. -/
def leaf (s : State) (r virt : Nat) : Nat := userTree.entryAt s.mem r (ptIdx virt) (dirs virt)

theorem path_pml4_of (hf : first ≤ 512) (h : pml4Idx v < first) : (treeOf hf).Path [pml4Idx v] :=
  ⟨(by decide : 1 ≤ 3), h, trivial⟩

theorem path_pdpt_of (hf : first ≤ 512) (h : pml4Idx v < first) : (treeOf hf).Path [pdptIdx v, pml4Idx v] :=
  ⟨(by decide : 2 ≤ 3), Nat.mod_lt _ (by decide), h, trivial⟩

theorem path_dirs_of (hf : first ≤ 512) (h : pml4Idx v < first) : (treeOf hf).Path (dirs v) :=
  ⟨Nat.le_refl 3, Nat.mod_lt _ (by decide), (path_pdpt_of hf h).2⟩

theorem entry_leaf_of (hf : first ≤ 512) (h : pml4Idx v < first) : (treeOf hf).Entry (ptIdx v) (dirs v) :=
  ⟨path_dirs_of hf h, Nat.mod_lt _ (by decide), (path_dirs_of hf h).2⟩

theorem not_path_leaf : ¬(treeOf hf).Path (ptIdx v :: dirs v) := fun h => absurd h.1 (by decide : ¬4 ≤ 3)

theorem pml4Idx_of_user (h : v < userTop) : pml4Idx v < 256 := by
  unfold pml4Idx
  unfold userTop at h
  omega

theorem path_pdpt (h : v < userTop) : userTree.Path [pdptIdx v, pml4Idx v] :=
  path_pdpt_of userFirst (pml4Idx_of_user h)

theorem path_dirs (h : v < userTop) : userTree.Path (dirs v) := path_dirs_of userFirst (pml4Idx_of_user h)

theorem entry_leaf (h : v < userTop) : userTree.Entry (ptIdx v) (dirs v) := entry_leaf_of userFirst (pml4Idx_of_user h)

/-- The page of an address as a walk takes it apart: its 36 bits below the sign extension. -/
def walkPage (virt : Nat) : Nat := virt / pageSize % 0x1000000000

/-- **Two addresses with one entry are on one page.** -/
theorem walkPage_eq_iff {w : Nat} : walkPage w = walkPage v ↔ ptIdx w = ptIdx v ∧ dirs w = dirs v := by
  simp only [dirs, List.cons.injEq, and_true]
  unfold walkPage ptIdx pdIdx pdptIdx pml4Idx pageSize
  omega

/-- **Two user pages with one entry are one page.** -/
theorem leaf_inj {w : Nat} (hv : v < userTop) (hw : w < userTop) :
    ptIdx w = ptIdx v ∧ dirs w = dirs v ↔ w / pageSize = v / pageSize := by
  rw [← walkPage_eq_iff]
  unfold walkPage pageSize
  unfold userTop at hv hw
  omega

theorem leaf_congr {w : Nat} (s : State) (r : Nat) (hv : v < userTop) (hw : w < userTop) (h : w / pageSize = v / pageSize) :
    leaf s r w = leaf s r v := by
  obtain ⟨h1, h2⟩ := (leaf_inj hv hw).2 h
  rw [leaf, leaf, h1, h2]

/-- The user's pages keep their entries. -/
def SameLeaves (s s' : State) (r : Nat) : Prop := ∀ w, w < userTop → leaf s' r w = leaf s r w

/-- The entries under the first entries of the root stay. -/
def SameUnder (first : Nat) (s s' : State) (r : Nat) : Prop := ∀ w, pml4Idx w < first → leaf s' r w = leaf s r w

theorem SameUnder.trans {s'' : State} (h : SameUnder first s s' r) (h' : SameUnder first s' s'' r) :
    SameUnder first s s'' r := fun w hw => (h' w hw).trans (h w hw)

theorem SameUnder.leaves (h : SameUnder 256 s s' r) : SameLeaves s s' r := fun w hw => h w (pml4Idx_of_user hw)

theorem SameLeaves.trans {s'' : State} (h : SameLeaves s s' r) (h' : SameLeaves s' s'' r) : SameLeaves s s'' r :=
  fun w hw => (h' w hw).trans (h w hw)

/-! ## The table below an entry -/

theorem nextTable_of_present {e : Nat} (h : Present e) : nextTable e = some (tableOf e) := if_pos h

theorem nextTable_of_not_present {e : Nat} (h : ¬Present e) : nextTable e = none := if_neg h

theorem alignDown_slot {t j : Nat} (ht : pageSize ∣ t) (hj : j < 512) : alignDown (slot t j) pageSize = t :=
  userTree.home_slot t j ht hj

/-- **A new table**, hung under an entry that has none. -/
theorem Tables.newTable (h : Tables hf s r) (he : (treeOf hf).Path (i :: p)) (ht : (treeOf hf).tableAt s.mem r p = some t)
    (hno : ¬Present (s.mem (slot t i))) (hn : Taken s s' n) :
    let s₂ := write (zeroTable s' n) (slot t i) (n ||| ptePresent ||| pteWrite ||| pteUser)
    Steps hf s s₂ r ∧ SameUnder first s s₂ r ∧ (treeOf hf).tableAt s₂.mem r (i :: p) = some n ∧
      tableOf (s₂.mem (slot t i)) = n := by
  intro s₂
  have hdn : pageSize ∣ n := h.dvd_of_free hn.free
  have hi : i < 512 := he.2.lt
  have htab : pageSize ∣ t := h.tree.isTable ht
  have htn : t ≠ n := by
    rintro rfl
    exact h.tree.used p t he.tail ht hn.free
  have hmem : ∀ a, s₂.mem a = if a = slot t i then n + 7 else if n ≤ a ∧ a < n + pageSize then 0 else s.mem a := by
    intro a
    show Function.update (fun a => if n ≤ a ∧ a < n + pageSize then 0 else s'.mem a) (slot t i) _ a = _
    rw [Function.update_apply, or_seven hdn, hn.mem]
  have hm : ∀ a, (treeOf hf).home a ≠ n → a ≠ (treeOf hf).slot t i → s₂.mem a = s.mem a := by
    intro a ha hne
    rw [hmem, if_neg (show a ≠ slot t i from hne), if_neg]
    rintro ⟨h1, h2⟩
    refine ha ?_
    obtain ⟨q, rfl⟩ := hdn
    show alignDown a pageSize = _
    unfold alignDown pageSize at *
    omega
  have hz : ∀ j, j < (treeOf hf).width → s₂.mem ((treeOf hf).slot n j) = 0 := by
    intro j hj
    have hne : (treeOf hf).slot n j ≠ slot t i := fun hc => htn (by
      rw [← alignDown_slot htab hi, ← hc]
      exact alignDown_slot hdn hj)
    rw [hmem, if_neg hne, if_pos]
    have hj' : j < 512 := hj
    show n ≤ n + 8 * j ∧ n + 8 * j < n + pageSize
    unfold pageSize
    omega
  have hval : s₂.mem (slot t i) = n + 7 := by rw [hmem, if_pos rfl]
  have hnew : (treeOf hf).next (s₂.mem ((treeOf hf).slot t i)) = some n := by
    show nextTable (s₂.mem (slot t i)) = some n
    rw [hval, nextTable_of_present (present_add_seven hdn), tableOf_add_seven hdn]
  have hno' : (treeOf hf).next (s.mem ((treeOf hf).slot t i)) = none := nextTable_of_not_present hno
  have hgrows : (treeOf hf).Grows s.Free s₂.Free s.mem s₂.mem r :=
    Layout.grows_table h.tree he ht hno' hn.free hdn hm hz hnew fun u hu => hn.still u hu
  have hent := fun j q hj hne => Layout.entryAt_grow h.tree he ht hno' hn.free hm hz hnew (j := j) (q := q) hj hne
  refine ⟨⟨hgrows, fun j q hq hh => ?_, hn.base, hn.kernelPml4, hn.cr3⟩, fun w hw => ?_, ?_, ?_⟩
  · by_cases hjq : j = i ∧ q = p
    · obtain ⟨rfl, rfl⟩ := hjq
      have htab' := hgrows.kept q t he.tail ht
      rw [Layout.entryAt_of_table htab'] at hh
      have hnh : ¬Huge (s₂.mem (slot t j)) := by
        rw [hval]
        exact not_huge_add_seven hdn
      exact absurd hh hnh
    · rw [hent j q hq.entry hjq] at hh ⊢
      exact ⟨hh, id⟩
  · have hleaf : ¬(treeOf hf).Path (ptIdx w :: dirs w) := not_path_leaf
    have hsame := hent _ _ (entry_leaf_of hf hw) fun hjq => hleaf (by
      rw [hjq.1, hjq.2]
      exact he)
    rw [entryAt_treeOf, entryAt_treeOf] at hsame
    exact hsame
  · rw [Layout.tableAt_grow h.tree he ht hno' hn.free hm hz hnew he, if_pos rfl]
  · rw [hval, tableOf_add_seven hdn]

/-- **`PTE_USER` on an entry that leads to a table.** -/
theorem Tables.orUser (h : Tables hf s r) (he : (treeOf hf).Path (i :: p)) (ht : (treeOf hf).tableAt s.mem r p = some t)
    (hp : Present (s.mem (slot t i))) :
    let s₂ := write s (slot t i) (s.mem (slot t i) ||| pteUser)
    Steps hf s s₂ r ∧ SameUnder first s s₂ r ∧
      (treeOf hf).tableAt s₂.mem r (i :: p) = some (tableOf (s₂.mem (slot t i))) := by
  intro s₂
  have hval : s₂.mem (slot t i) = s.mem (slot t i) ||| pteUser := Function.update_self _ _ _
  have hm : ∀ a, a ≠ (treeOf hf).slot t i → s₂.mem a = s.mem a := fun a ha => Function.update_of_ne ha _ _
  have hn : (treeOf hf).Path (i :: p) →
      (treeOf hf).next (s₂.mem ((treeOf hf).slot t i)) = (treeOf hf).next (s.mem ((treeOf hf).slot t i)) := by
    intro _
    show nextTable (s₂.mem (slot t i)) = nextTable (s.mem (slot t i))
    rw [hval, nextTable_of_present ((present_or_user _).2 hp), nextTable_of_present hp, tableOf_or_user]
  have hgrows := Layout.grows_write h.tree he.entry ht hm hn
  have hent := fun j q hj => Layout.entryAt_write h.tree he.entry ht hm hn (j := j) (q := q) hj
  refine ⟨⟨hgrows, fun j q hq hh => ?_, rfl, rfl, rfl⟩, fun w hw => ?_, ?_⟩
  · by_cases hjq : j = i ∧ q = p
    · obtain ⟨rfl, rfl⟩ := hjq
      rw [hent j q hq.entry, if_pos ⟨rfl, rfl⟩] at hh
      have hh' : Huge (s.mem (slot t j) ||| pteUser) := hval ▸ hh
      rw [Layout.entryAt_of_table ht]
      exact ⟨(huge_or_user _).1 hh', fun _ => hp⟩
    · rw [hent j q hq.entry, if_neg hjq] at hh ⊢
      exact ⟨hh, id⟩
  · have hleaf : ¬(treeOf hf).Path (ptIdx w :: dirs w) := not_path_leaf
    have hsame := (hent _ _ (entry_leaf_of hf hw)).trans (if_neg fun hjq => hleaf (by
      rw [hjq.1, hjq.2]
      exact he))
    rw [entryAt_treeOf, entryAt_treeOf] at hsame
    exact hsame
  · rw [Layout.tableAt_of_parent (hgrows.kept p t he.tail ht)]
    show nextTable (s₂.mem (slot t i)) = _
    rw [hval]
    exact nextTable_of_present ((present_or_user _).2 hp)

/-- **A step down**, to the table that is there or a new one; `none` when there is no page for one. -/
theorem Tables.getOrCreateTable_spec (h : Tables hf s r) (he : (treeOf hf).Path (i :: p))
    (ht : (treeOf hf).tableAt s.mem r p = some t) {o : Option Nat} (hg : getOrCreateTable s t i = (o, s')) :
    Steps hf s s' r ∧ SameUnder first s s' r ∧ (treeOf hf).tableAt s'.mem r (i :: p) = o := by
  unfold getOrCreateTable at hg
  by_cases hp : Present (s.mem (slot t i))
  · rw [if_neg (not_not.2 hp)] at hg
    cases hg
    exact h.orUser he ht hp
  rw [if_pos hp] at hg
  rcases ha : pmmAllocPage s with ⟨n, s₁⟩
  rw [ha] at hg
  have hspec := pmmAllocPage_spec ha
  cases n with
  | zero =>
    cases hg
    have hnone : (treeOf hf).tableAt s.mem r (i :: p) = none :=
      (Layout.tableAt_of_parent ht).trans (nextTable_of_not_present hp)
    rcases hspec with ⟨-, rfl⟩ | hn
    · exact ⟨h.refl, fun _ _ => rfl, hnone⟩
    · -- page 0: taken, and thrown away
      refine ⟨h.steps_taken hn, fun w _ => ?_, ?_⟩
      · unfold leaf
        rw [hn.mem]
      · rw [hn.mem]
        exact hnone
  | succ n =>
    have hn : Taken s s₁ (n + 1) := hspec.resolve_left fun hc => Nat.succ_ne_zero n hc.1
    obtain ⟨h1, h2, h3, h4⟩ := h.newTable he ht hp hn
    cases hg
    refine ⟨h1, h2, ?_⟩
    rw [h3]
    exact congrArg some h4.symm

/-! ## `vmm_map_page_in_pgd` -/

/-- The three steps down to the page table, `none` when a page for a table is missing. -/
def obtainPt (s : State) (pgd virt : Nat) : Option Nat × State :=
  match getOrCreateTable s pgd (pml4Idx virt) with
  | (none, s) => (none, s)
  | (some pdpt, s) =>
    match getOrCreateTable s pdpt (pdptIdx virt) with
    | (none, s) => (none, s)
    | (some pd, s) => getOrCreateTable s pd (pdIdx virt)

/-- The entry stored for a page. -/
def pteFor (phys flags : Nat) : Nat := tableOf phys ||| flags &&& 0x0FFF ||| flags &&& pteNx ||| ptePresent

def vmmMapPageInPgd (s : State) (pgd virt phys flags : Nat) : State :=
  if virt = 0 then s
  else
    match obtainPt s pgd virt with
    | (none, s) => s
    | (some pt, s) => write s (slot pt (ptIdx virt)) (pteFor phys flags)

/-- `vmm_map_page` is `vmm_map_page_in_pgd` on the root it chooses. -/
theorem vmmMapPage_eq (s : State) (virt phys flags : Nat) : vmmMapPage s virt phys flags =
    vmmMapPageInPgd s (if pteNx ≤ virt then s.kernelPml4 else readCr3 s) virt phys flags := by
  unfold vmmMapPage vmmMapPageInPgd obtainPt
  dsimp only
  generalize (if pteNx ≤ virt then s.kernelPml4 else readCr3 s) = pgd
  by_cases hv : virt = 0
  · rw [if_pos hv, if_pos hv]
  rw [if_neg hv, if_neg hv]
  rcases getOrCreateTable s pgd (pml4Idx virt) with ⟨_ | pdpt, s₁⟩
  · rfl
  dsimp only
  rcases getOrCreateTable s₁ pdpt (pdptIdx virt) with ⟨_ | pd, s₂⟩ <;> rfl

theorem Tables.obtainPt_spec (h : Tables hf s r) (hv : pml4Idx v < first) {o : Option Nat} (ho : obtainPt s r v = (o, s')) :
    Steps hf s s' r ∧ SameUnder first s s' r ∧ (treeOf hf).tableAt s'.mem r (dirs v) = o := by
  unfold obtainPt at ho
  rcases h4 : getOrCreateTable s r (pml4Idx v) with ⟨o₄, s₄⟩
  obtain ⟨w4, l4, t4⟩ := h.getOrCreateTable_spec (path_pml4_of hf hv) rfl h4
  rw [h4] at ho
  cases o₄ with
  | none =>
    cases ho
    refine ⟨w4, l4, ?_⟩
    unfold dirs
    rw [Layout.tableAt_cons, Layout.tableAt_cons, t4]
    rfl
  | some pdpt =>
    dsimp only at ho
    rcases h3 : getOrCreateTable s₄ pdpt (pdptIdx v) with ⟨o₃, s₃⟩
    obtain ⟨w3, l3, t3⟩ := (w4.tables h).getOrCreateTable_spec (path_pdpt_of hf hv) t4 h3
    rw [h3] at ho
    cases o₃ with
    | none =>
      cases ho
      refine ⟨w4.trans w3, l4.trans l3, ?_⟩
      unfold dirs
      rw [Layout.tableAt_cons, t3]
      rfl
    | some pd =>
      obtain ⟨w2, l2, t2⟩ := (w3.tables (w4.tables h)).getOrCreateTable_spec (path_dirs_of hf hv) t3 ho
      exact ⟨(w4.trans w3).trans w2, (l4.trans l3).trans l2, t2⟩

theorem obtainPt_spec (h : Space s r) (hv : v < userTop) {o : Option Nat} (ho : obtainPt s r v = (o, s')) :
    Works s s' r ∧ SameLeaves s s' r ∧ userTree.tableAt s'.mem r (dirs v) = o := by
  obtain ⟨hs, hl, ht⟩ := h.tables.obtainPt_spec (pml4Idx_of_user hv) ho
  exact ⟨hs.works h, hl.leaves, ht⟩

/-- The tables of a page that has an entry are there. -/
theorem obtainPt_isSome (h : Space s r) (hv : v < userTop) (hl : leaf s r v ≠ 0) : (obtainPt s r v).1.isSome = true := by
  rcases ho : obtainPt s r v with ⟨_ | pt, s₁⟩
  · obtain ⟨-, l1, t1⟩ := obtainPt_spec h hv ho
    refine absurd ?_ hl
    rw [← l1 v hv]
    exact Layout.entryAt_of_none t1
  · rfl

/-- **A page's entry is stored, and the other pages keep theirs.** -/
def LeafSet (s s' : State) (r virt e : Nat) : Prop :=
  ∀ w, w < userTop → leaf s' r w = if w / pageSize = virt / pageSize then e else leaf s r w

/-- The same, for a whole root. -/
def LeafStored (first : Nat) (s s' : State) (r virt e : Nat) : Prop :=
  ∀ w, pml4Idx w < first → leaf s' r w = if walkPage w = walkPage virt then e else leaf s r w

/-- **What `vmm_map_page_in_pgd` does**: it stores the entry, or, when a page for a table is missing, none. -/
theorem Tables.mapInPgd_spec (phys flags : Nat) (h : Tables hf s r) (hv : pml4Idx v < first) (hv0 : v ≠ 0) :
    let s' := vmmMapPageInPgd s r v phys flags
    Steps hf s s' r ∧
      if (obtainPt s r v).1.isSome then LeafStored first s s' r v (pteFor phys flags)
      else SameUnder first s s' r ∧ leaf s' r v = 0 := by
  unfold vmmMapPageInPgd
  rw [if_neg hv0]
  rcases ho : obtainPt s r v with ⟨o, s₁⟩
  obtain ⟨w1, l1, t1⟩ := h.obtainPt_spec hv ho
  cases o with
  | none =>
    rw [tableAt_treeOf] at t1
    exact ⟨w1, l1, Layout.entryAt_of_none t1⟩
  | some pt =>
    dsimp only
    have hs1 := w1.tables h
    have hm : ∀ a, a ≠ (treeOf hf).slot pt (ptIdx v) →
        (write s₁ (slot pt (ptIdx v)) (pteFor phys flags)).mem a = s₁.mem a := fun a ha => Function.update_of_ne ha _ _
    have hgrows := Layout.grows_write hs1.tree (entry_leaf_of hf hv) t1 hm fun hc => absurd hc not_path_leaf
    have hent := fun j q hj => Layout.entryAt_write hs1.tree (entry_leaf_of hf hv) t1 hm
      (fun hc => absurd hc not_path_leaf) (j := j) (q := q) hj
    refine ⟨w1.trans ⟨hgrows, fun j q hq hh => ?_, rfl, rfl, rfl⟩, fun w hw => ?_⟩
    · have hne : ¬(j = ptIdx v ∧ q = dirs v) := by
        rintro ⟨rfl, rfl⟩
        exact not_path_leaf hq
      rw [hent j q hq.entry, if_neg hne] at hh ⊢
      exact ⟨hh, id⟩
    · have hset := hent _ _ (entry_leaf_of hf hw)
      rw [entryAt_treeOf, entryAt_treeOf] at hset
      rw [leaf, hset]
      simp only [walkPage_eq_iff]
      split
      · exact Function.update_self _ _ _
      · exact l1 w hw

theorem mapInPgd_spec (phys flags : Nat) (h : Space s r) (hv : v < userTop) (hv0 : v ≠ 0) :
    let s' := vmmMapPageInPgd s r v phys flags
    Works s s' r ∧
      if (obtainPt s r v).1.isSome then LeafSet s s' r v (pteFor phys flags) else SameLeaves s s' r ∧ leaf s' r v = 0 := by
  intro s'
  obtain ⟨hs, hset⟩ := h.tables.mapInPgd_spec phys flags (pml4Idx_of_user hv) hv0
  refine ⟨hs.works h, ?_⟩
  split at hset
  · rename_i ho
    rw [if_pos ho]
    intro w hw
    rw [hset w (pml4Idx_of_user hw)]
    simp only [walkPage_eq_iff, leaf_inj hv hw]
  · rename_i ho
    rw [if_neg ho]
    exact ⟨hset.1.leaves, hset.2⟩

end Paging
end Pico
