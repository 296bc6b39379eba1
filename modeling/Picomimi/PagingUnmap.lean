import Picomimi.Paging
import Picomimi.Vma
/-!
# PagingUnmap — `sys_munmap` and the page tables

`sys_munmap` clears words that `vmm_unmap_page` finds from `kernel_pml4`; the process's own tables hang from `CR3`.
`Agrees` is what the unmapping should do to the translation, and `unmap_agrees_iff` says when it does: in practice, when
there was nothing to unmap.
-/
namespace Pico
namespace Paging

open Lib

/-- A process: its VMA lists and the tables it runs on. -/
structure Proc where
  vm : Mm.State
  pt : State

/-- How many turns the loop of `sys_munmap` takes. -/
def munmapTurns (addr length : Nat) : Nat :=
  let endAddr := add64 addr (Mm.pageAlign length)
  if addr < endAddr then (endAddr - addr) / pageSize else 0

/-- `sys_munmap` with both its loops: the pages, and the areas (`Mm.sysMunmap`). -/
def sysMunmap (s : Proc) (k addr length : Nat) (tails : Nat → Option Nat) : Int × Proc :=
  if addr % pageSize ≠ 0 then (-Mm.einval, s)
  else if length = 0 then (-Mm.einval, s)
  else
    match s.vm.mms k with
    | none => (0, s)
    | some _ => (0, ⟨(Mm.sysMunmap s.vm k addr length tails).2, unmapPages s.pt addr (munmapTurns addr length)⟩)

/-- A call of `vmm_map_page` for a user page. -/
structure Mapping where
  virt : Nat
  phys : Nat
  flags : Nat

def mapAll (s : Proc) (maps : List Mapping) : Proc :=
  { s with pt := maps.foldl (fun pt m => vmmMapPage pt m.virt m.phys m.flags) s.pt }

/-! ## What a walk reads -/

/-- The entries the translation of `virt` reads. -/
def walkWords (mem : Nat → Nat) (pml4 virt : Nat) : List Nat :=
  let a4 := pml4Slot pml4 virt
  let a3 := pdptSlot mem pml4 virt
  let a2 := pdSlot mem pml4 virt
  if ¬Present (mem a4) then [a4]
  else if ¬Present (mem a3) ∨ Huge (mem a3) then [a4, a3]
  else if ¬Present (mem a2) ∨ Huge (mem a2) then [a4, a3, a2]
  else [a4, a3, a2, ptSlot mem pml4 virt]

/-- The page-table entries of `kernel_pml4` for `virt`.  (No code path makes a 1 GB entry; like `vmm_unmap_page`, this
would read one as a table.) -/
def kernelWords (s : State) (virt : Nat) : List Nat :=
  let a4 := pml4Slot s.kernelPml4 virt
  let a3 := pdptSlot s.mem s.kernelPml4 virt
  let a2 := pdSlot s.mem s.kernelPml4 virt
  if ¬Present (s.mem a4) then [a4]
  else if ¬Present (s.mem a3) then [a4, a3]
  else if ¬Present (s.mem a2) ∨ Huge (s.mem a2) then [a4, a3, a2]
  else [a4, a3, a2, ptSlot s.mem s.kernelPml4 virt]

/-- A page-table entry of `kernel_pml4`. -/
def KernelEntry (s : State) (a : Nat) : Prop := ∃ virt, a ∈ kernelWords s virt

/-- The walk of `kernel_pml4` for one of the first `n` pages ends at the word `a`. -/
def ClearedBy (s : State) (addr n a : Nat) : Prop := ∃ j, j < n ∧ unmapSlot s (addr + j * pageSize) = some a

variable {s s' : State} {addr n N a virt : Nat}

@[simp] theorem vmmUnmapPage_kernelPml4 (s : State) (virt : Nat) : (vmmUnmapPage s virt).kernelPml4 = s.kernelPml4 := by
  unfold vmmUnmapPage
  split <;> rfl

@[simp] theorem vmmUnmapPage_cr3 (s : State) (virt : Nat) : (vmmUnmapPage s virt).cr3 = s.cr3 := by
  unfold vmmUnmapPage
  split <;> rfl

theorem unmapPages_kernelPml4 (s : State) (addr : Nat) : ∀ n, (unmapPages s addr n).kernelPml4 = s.kernelPml4
  | 0 => rfl
  | n + 1 => (vmmUnmapPage_kernelPml4 _ _).trans (unmapPages_kernelPml4 s addr n)

theorem unmapPages_cr3 (s : State) (addr : Nat) : ∀ n, (unmapPages s addr n).cr3 = s.cr3
  | 0 => rfl
  | n + 1 => (vmmUnmapPage_cr3 _ _).trans (unmapPages_cr3 s addr n)

/-- One page: the word its walk ends at is 0 after it, and nothing else changes. -/
theorem vmmUnmapPage_mem (s : State) (virt a : Nat) :
    (vmmUnmapPage s virt).mem a = if unmapSlot s virt = some a then 0 else s.mem a := by
  unfold vmmUnmapPage
  cases h : unmapSlot s virt with
  | none => simp
  | some b => simp [write, Function.update_apply, eq_comm]

/-- **Words are only ever cleared.** -/
theorem unmapPages_mem_or (s : State) (addr a : Nat) : ∀ n,
    (unmapPages s addr n).mem a = s.mem a ∨ (unmapPages s addr n).mem a = 0
  | 0 => .inl rfl
  | n + 1 => by
    rw [unmapPages, vmmUnmapPage_mem]
    split
    · exact .inr rfl
    · exact unmapPages_mem_or s addr a n

theorem unmapPages_mem_zero (h : (unmapPages s addr n).mem a = 0) : ∀ m, (unmapPages s addr (n + m)).mem a = 0
  | 0 => h
  | m + 1 => by
    rw [← Nat.add_assoc, unmapPages, vmmUnmapPage_mem]
    split
    · rfl
    · exact unmapPages_mem_zero h m

section Walks

variable {mem mem' : Nat → Nat} {pml4 : Nat}

theorem pdptSlot_congr (h4 : mem' (pml4Slot pml4 virt) = mem (pml4Slot pml4 virt)) :
    pdptSlot mem' pml4 virt = pdptSlot mem pml4 virt := by
  rw [pdptSlot, h4, pdptSlot]

theorem pdSlot_congr (h4 : mem' (pml4Slot pml4 virt) = mem (pml4Slot pml4 virt))
    (h3 : mem' (pdptSlot mem pml4 virt) = mem (pdptSlot mem pml4 virt)) : pdSlot mem' pml4 virt = pdSlot mem pml4 virt := by
  rw [pdSlot, pdptSlot_congr h4, h3, pdSlot]

theorem ptSlot_congr (h4 : mem' (pml4Slot pml4 virt) = mem (pml4Slot pml4 virt))
    (h3 : mem' (pdptSlot mem pml4 virt) = mem (pdptSlot mem pml4 virt))
    (h2 : mem' (pdSlot mem pml4 virt) = mem (pdSlot mem pml4 virt)) : ptSlot mem' pml4 virt = ptSlot mem pml4 virt := by
  rw [ptSlot, pdSlot_congr h4 h3, h2, ptSlot]

end Walks

/-- The unmapping walk reads entries of `kernel_pml4` only, and follows them alone. -/
theorem unmapSlot_congr (hk : s'.kernelPml4 = s.kernelPml4) (h : ∀ a, KernelEntry s a → s'.mem a = s.mem a) :
    unmapSlot s' virt = unmapSlot s virt := by
  have hw : ∀ a ∈ kernelWords s virt, s'.mem a = s.mem a := fun a ha => h a ⟨virt, ha⟩
  unfold kernelWords at hw
  unfold unmapSlot
  rw [hk]
  by_cases h4 : Present (s.mem (pml4Slot s.kernelPml4 virt))
  · rw [if_neg (not_not.2 h4)] at hw
    by_cases h3 : Present (s.mem (pdptSlot s.mem s.kernelPml4 virt))
    · rw [if_neg (not_not.2 h3)] at hw
      have hw' : ∀ a ∈ [pml4Slot s.kernelPml4 virt, pdptSlot s.mem s.kernelPml4 virt, pdSlot s.mem s.kernelPml4 virt],
          s'.mem a = s.mem a := by
        intro a ha
        apply hw
        split
        · exact ha
        · exact List.mem_append_left [ptSlot s.mem s.kernelPml4 virt] ha
      simp only [List.forall_mem_cons] at hw'
      obtain ⟨e4, e3, e2, -⟩ := hw'
      rw [e4, pdptSlot_congr e4, e3, pdSlot_congr e4 e3, e2, ptSlot_congr e4 e3 e2]
    · rw [if_pos h3] at hw
      simp only [List.forall_mem_cons] at hw
      obtain ⟨e4, e3, -⟩ := hw
      rw [e4, pdptSlot_congr e4, e3, if_pos h3, if_pos h3]
  · rw [if_pos h4] at hw
    rw [hw _ List.mem_cons_self, if_pos h4, if_pos h4]

theorem clearedBy_succ : ClearedBy s addr (n + 1) a ↔ ClearedBy s addr n a ∨ unmapSlot s (addr + n * pageSize) = some a := by
  constructor
  · rintro ⟨j, hj, h⟩
    rcases Nat.lt_succ_iff_lt_or_eq.1 hj with hj | rfl
    · exact .inl ⟨j, hj, h⟩
    · exact .inr h
  · rintro (⟨j, hj, h⟩ | h)
    · exact ⟨j, Nat.lt_succ_of_lt hj, h⟩
    · exact ⟨n, Nat.lt_succ_self n, h⟩

/-- **While no entry of `kernel_pml4` changes, the words cleared are the ones the first state's walks end at.** -/
theorem unmapPages_mem : ∀ {n : Nat}, (∀ m, m < n → ∀ a, KernelEntry s a → (unmapPages s addr m).mem a = s.mem a) →
    ∀ a, (ClearedBy s addr n a → (unmapPages s addr n).mem a = 0) ∧
      (¬ClearedBy s addr n a → (unmapPages s addr n).mem a = s.mem a)
  | 0, _, a => ⟨fun ⟨_, hj, _⟩ => absurd hj (Nat.not_lt_zero _), fun _ => rfl⟩
  | n + 1, h, a => by
    obtain ⟨h1, h2⟩ := unmapPages_mem (fun m hm => h m (Nat.lt_succ_of_lt hm)) a
    have hslot : unmapSlot (unmapPages s addr n) (addr + n * pageSize) = unmapSlot s (addr + n * pageSize) :=
      unmapSlot_congr (unmapPages_kernelPml4 s addr n) (h n (Nat.lt_succ_self n))
    rw [clearedBy_succ, unmapPages, vmmUnmapPage_mem, hslot]
    by_cases hs : unmapSlot s (addr + n * pageSize) = some a
    · rw [if_pos hs]
      exact ⟨fun _ => rfl, fun hn => absurd (.inr hs) hn⟩
    · rw [if_neg hs]
      exact ⟨fun hc => h1 (hc.resolve_right hs), fun hn => h2 fun hc => hn (.inl hc)⟩

/-! ## Cleared words and the translation -/

/-- **A walk that meets a cleared word ends in 0.** -/
theorem virtToPhysIn_of_cleared {mem mem' : Nat → Nat} {C : Nat → Prop} {pml4 : Nat} (h0 : ∀ a, C a → mem' a = 0)
    (h1 : ∀ a, ¬C a → mem' a = mem a) (h : ∃ a ∈ walkWords mem pml4 virt, C a) : virtToPhysIn mem' pml4 virt = 0 := by
  have hzero : ¬Present 0 := by decide
  obtain ⟨a, ha, hC⟩ := h
  unfold walkWords at ha
  unfold virtToPhysIn
  -- the first level whose entry is cleared
  by_cases c4 : C (pml4Slot pml4 virt)
  · rw [h0 _ c4, if_pos hzero]
  have e4 := h1 _ c4
  rw [e4]
  by_cases p4 : Present (mem (pml4Slot pml4 virt))
  · rw [if_neg (not_not.2 p4)] at ha ⊢
    rw [pdptSlot_congr e4]
    by_cases c3 : C (pdptSlot mem pml4 virt)
    · simp only [h0 _ c3, hzero, not_false_eq_true, if_true]
    have e3 := h1 _ c3
    simp only [e3, pdSlot_congr e4 e3]
    by_cases g3 : ¬Present (mem (pdptSlot mem pml4 virt)) ∨ Huge (mem (pdptSlot mem pml4 virt))
    · rw [if_pos g3] at ha
      simp only [List.mem_cons, List.not_mem_nil, or_false] at ha
      rcases ha with rfl | rfl
      · exact absurd hC c4
      · exact absurd hC c3
    rw [if_neg g3] at ha
    obtain ⟨p3, q3⟩ := not_or.1 g3
    rw [if_neg p3, if_neg q3]
    by_cases c2 : C (pdSlot mem pml4 virt)
    · simp only [h0 _ c2, hzero, not_false_eq_true, if_true]
    have e2 := h1 _ c2
    simp only [e2, ptSlot_congr e4 e3 e2]
    by_cases g2 : ¬Present (mem (pdSlot mem pml4 virt)) ∨ Huge (mem (pdSlot mem pml4 virt))
    · rw [if_pos g2] at ha
      simp only [List.mem_cons, List.not_mem_nil, or_false] at ha
      rcases ha with rfl | rfl | rfl
      · exact absurd hC c4
      · exact absurd hC c3
      · exact absurd hC c2
    rw [if_neg g2] at ha
    obtain ⟨p2, q2⟩ := not_or.1 g2
    rw [if_neg p2, if_neg q2]
    simp only [List.mem_cons, List.not_mem_nil, or_false] at ha
    rcases ha with rfl | rfl | rfl | rfl
    · exact absurd hC c4
    · exact absurd hC c3
    · exact absurd hC c2
    · rw [h0 _ hC, if_pos hzero]
  · rw [if_pos p4] at ha
    rw [List.mem_singleton.1 ha] at hC
    exact absurd hC c4

/-- **A walk that meets none ends where it did.** -/
theorem virtToPhysIn_congr {mem mem' : Nat → Nat} {pml4 : Nat} (h : ∀ a ∈ walkWords mem pml4 virt, mem' a = mem a) :
    virtToPhysIn mem' pml4 virt = virtToPhysIn mem pml4 virt := by
  unfold walkWords at h
  unfold virtToPhysIn
  by_cases p4 : Present (mem (pml4Slot pml4 virt))
  · rw [if_neg (not_not.2 p4)] at h
    have e4 : mem' (pml4Slot pml4 virt) = mem (pml4Slot pml4 virt) := by
      apply h
      split <;> [exact List.mem_cons_self; split <;> exact List.mem_cons_self]
    have e3 : mem' (pdptSlot mem pml4 virt) = mem (pdptSlot mem pml4 virt) := by
      apply h
      split <;> [simp; split <;> simp]
    rw [e4, pdptSlot_congr e4]
    simp only [e3, pdSlot_congr e4 e3]
    by_cases g3 : ¬Present (mem (pdptSlot mem pml4 virt)) ∨ Huge (mem (pdptSlot mem pml4 virt))
    · rcases g3 with g3 | g3 <;> simp only [g3, if_true, not_false_eq_true]
    rw [if_neg g3] at h
    have e2 : mem' (pdSlot mem pml4 virt) = mem (pdSlot mem pml4 virt) := by
      apply h
      split <;> simp
    simp only [e2, ptSlot_congr e4 e3 e2]
    by_cases g2 : ¬Present (mem (pdSlot mem pml4 virt)) ∨ Huge (mem (pdSlot mem pml4 virt))
    · rcases g2 with g2 | g2 <;> simp only [g2, if_true, not_false_eq_true]
    rw [if_neg g2] at h
    rw [h (ptSlot mem pml4 virt) (by simp)]
  · rw [if_pos p4] at h
    rw [h _ List.mem_cons_self, if_pos p4, if_pos p4]

/-! ## What `sys_munmap` does to the translation -/

/-- A page of `[addr, addr + length)`. -/
def InRange (addr length page : Nat) : Prop := pageSize ∣ page ∧ page < word64 ∧ addr ≤ page ∧ page < addr + length

/-- A user page: `vmm_map_page` puts it into the tables of `CR3`. -/
def UserPage (page : Nat) : Prop := pageSize ∣ page ∧ page < pteNx

/-- **What the unmapping should do**: the range is unmapped, every other user page is where it was, and no entry of
`kernel_pml4` is changed. -/
structure Agrees (s s' : State) (addr length : Nat) : Prop where
  unmapped : ∀ p, InRange addr length p → vmmUserVirtToPhys s' p = 0
  others : ∀ p, UserPage p → ¬InRange addr length p → vmmUserVirtToPhys s' p = vmmUserVirtToPhys s p
  kernel : ∀ a, KernelEntry s a → s'.mem a = s.mem a

/-- The word is one that the walks of `kernel_pml4` for the pages of the range end at. -/
def Cleared (s : State) (addr length a : Nat) : Prop := ClearedBy s addr (munmapTurns addr length) a

/-- **When `sys_munmap` does that**: no page of the range is mapped for the process, or the walk of `kernel_pml4` happens
to end at an entry of the process's own walk; no such word is on the walk of a mapped page outside the range; and those of
them that are entries of `kernel_pml4` are 0 already. -/
structure UnmapOk (s : State) (addr length : Nat) : Prop where
  unmapped : ∀ p, InRange addr length p → vmmUserVirtToPhys s p ≠ 0 →
    ∃ a ∈ walkWords s.mem (readCr3 s) p, Cleared s addr length a
  others : ∀ p, UserPage p → ¬InRange addr length p → vmmUserVirtToPhys s p ≠ 0 →
    ∀ a ∈ walkWords s.mem (readCr3 s) p, ¬Cleared s addr length a
  kernel : ∀ a, KernelEntry s a → Cleared s addr length a → s.mem a = 0

theorem clearedBy_mono (h : ClearedBy s addr n a) (hn : n ≤ N) : ClearedBy s addr N a := by
  obtain ⟨j, hj, h⟩ := h
  exact ⟨j, Nat.lt_of_lt_of_le hj hn, h⟩

/-- If no entry of `kernel_pml4` is changed in the end, none was on the way. -/
theorem kernel_mem_of_final (h : ∀ a, KernelEntry s a → (unmapPages s addr N).mem a = s.mem a) :
    ∀ m, m < N → ∀ a, KernelEntry s a → (unmapPages s addr m).mem a = s.mem a := by
  intro m hm a ha
  rcases unmapPages_mem_or s addr a m with h1 | h1
  · exact h1
  · have h2 := unmapPages_mem_zero h1 (N - m)
    rw [Nat.add_sub_cancel' (Nat.le_of_lt hm), h a ha] at h2
    rw [h1, h2]

/-- If the words to clear that are entries of `kernel_pml4` are 0, none of its entries changes on the way. -/
theorem kernel_mem_of_zero (h : ∀ a, KernelEntry s a → ClearedBy s addr N a → s.mem a = 0) :
    ∀ n, n ≤ N → ∀ a, KernelEntry s a → (unmapPages s addr n).mem a = s.mem a := by
  intro n
  induction n using Nat.strongRecOn with
  | ind n ih =>
    intro hn a ha
    obtain ⟨h1, h2⟩ := unmapPages_mem (fun m hm => ih m hm (by omega)) a
    by_cases hc : ClearedBy s addr n a
    · rw [h1 hc, h a ha (clearedBy_mono hc hn)]
    · exact h2 hc

theorem unmapPages_agrees_iff (s : State) (addr length : Nat) :
    Agrees s (unmapPages s addr (munmapTurns addr length)) addr length ↔ UnmapOk s addr length := by
  have hcr3 : readCr3 (unmapPages s addr (munmapTurns addr length)) = readCr3 s :=
    congrArg tableOf (unmapPages_cr3 s addr _)
  constructor
  · rintro ⟨h1, h2, h3⟩
    have hmem := unmapPages_mem (kernel_mem_of_final h3)
    refine ⟨fun p hp hne => ?_, fun p hp hout hne a ha hc => hne ?_, fun a ha hc => ?_⟩
    · by_contra hno
      refine hne (Eq.trans ?_ (h1 p hp))
      rw [vmmUserVirtToPhys, vmmUserVirtToPhys, hcr3]
      exact (virtToPhysIn_congr fun a ha => (hmem a).2 fun hc => hno ⟨a, ha, hc⟩).symm
    · rw [← h2 p hp hout, vmmUserVirtToPhys, hcr3]
      exact virtToPhysIn_of_cleared (fun a => (hmem a).1) (fun a => (hmem a).2) ⟨a, ha, hc⟩
    · rw [← h3 a ha, (hmem a).1 hc]
  · rintro ⟨h1, h2, h3⟩
    have hkern := kernel_mem_of_zero h3
    have hmem := unmapPages_mem (fun m hm => hkern m (Nat.le_of_lt hm))
    have hhit : ∀ p, (∃ a ∈ walkWords s.mem (readCr3 s) p, Cleared s addr length a) →
        vmmUserVirtToPhys (unmapPages s addr (munmapTurns addr length)) p = 0 := by
      intro p hp
      rw [vmmUserVirtToPhys, hcr3]
      exact virtToPhysIn_of_cleared (fun a => (hmem a).1) (fun a => (hmem a).2) hp
    have hmiss : ∀ p, (∀ a ∈ walkWords s.mem (readCr3 s) p, ¬Cleared s addr length a) →
        vmmUserVirtToPhys (unmapPages s addr (munmapTurns addr length)) p = vmmUserVirtToPhys s p := by
      intro p hp
      rw [vmmUserVirtToPhys, hcr3]
      exact virtToPhysIn_congr fun a ha => (hmem a).2 (hp a ha)
    refine ⟨fun p hp => ?_, fun p hp hout => ?_, hkern _ (Nat.le_refl _)⟩
    · by_cases hit : ∃ a ∈ walkWords s.mem (readCr3 s) p, Cleared s addr length a
      · exact hhit p hit
      · have h0 : vmmUserVirtToPhys s p = 0 := by
          by_contra hne
          exact hit (h1 p hp hne)
        rw [hmiss p fun a ha hc => hit ⟨a, ha, hc⟩, h0]
    · by_cases hit : ∃ a ∈ walkWords s.mem (readCr3 s) p, Cleared s addr length a
      · rw [hhit p hit]
        by_contra hne
        obtain ⟨a, ha, hc⟩ := hit
        exact h2 p hp hout (Ne.symm hne) a ha hc
      · exact hmiss p fun a ha hc => hit ⟨a, ha, hc⟩

/-- **Where the tables of the process are apart from what `kernel_pml4` leads to**, `sys_munmap` does its work only when
there is none: nothing of the range is mapped, and the entries of `kernel_pml4` it clears are 0. -/
theorem unmapOk_iff_of_apart {length : Nat}
    (h : ∀ p, vmmUserVirtToPhys s p ≠ 0 → ∀ a ∈ walkWords s.mem (readCr3 s) p, ¬Cleared s addr length a) :
    UnmapOk s addr length ↔ (∀ p, InRange addr length p → vmmUserVirtToPhys s p = 0) ∧
      ∀ a, KernelEntry s a → Cleared s addr length a → s.mem a = 0 := by
  constructor
  · rintro ⟨h1, -, h3⟩
    refine ⟨fun p hp => ?_, h3⟩
    by_contra hne
    obtain ⟨a, ha, hc⟩ := h1 p hp hne
    exact h p hne a ha hc
  · rintro ⟨h1, h3⟩
    exact ⟨fun p hp hne => absurd (h1 p hp) hne, fun p _ _ hne => h p hne, h3⟩

/-- **After any user mappings, a successful `sys_munmap` unmaps the range and nothing else exactly when `UnmapOk`
holds.** -/
theorem unmap_agrees_iff (s : Proc) (maps : List Mapping) (k addr length : Nat) (tails : Nat → Option Nat) (t : Proc)
    (hmm : (s.vm.mms k).isSome = true) (h : sysMunmap (mapAll s maps) k addr length tails = (0, t)) :
    Agrees (mapAll s maps).pt t.pt addr length ↔ UnmapOk (mapAll s maps).pt addr length := by
  unfold sysMunmap at h
  have hne : (-Mm.einval : Int) ≠ 0 := by decide
  split at h
  · exact absurd (Prod.mk.inj h).1 hne
  split at h
  · exact absurd (Prod.mk.inj h).1 hne
  split at h
  · rename_i hnone
    have hnone' : s.vm.mms k = none := hnone
    rw [hnone'] at hmm
    cases hmm
  · cases h
    exact unmapPages_agrees_iff _ _ _

/-- The tables `boot.S` builds (2 MB pages over the first GB, at 0 and at the kernel's base), and the new root
`0x200000` of a process, with the kernel's half copied by `mm_alloc`. -/
def bootPt : State where
  mem a :=
    if a = 0x101000 then 0x102003 else if a = 0x101FF8 then 0x103003
    else if a = 0x102000 then 0x104003 else if a = 0x103FF0 then 0x105003
    else if 0x104000 ≤ a ∧ a < 0x105000 ∧ a % 8 = 0 then (a - 0x104000) / 8 * 0x200000 + 0x83
    else if 0x105000 ≤ a ∧ a < 0x106000 ∧ a % 8 = 0 then (a - 0x105000) / 8 * 0x200000 + 0x83
    else if a = 0x200FF8 then 0x103003 else 0
  pageBitmap i := 0x101 ≤ i
  bitmapBase := 0x100000
  kernelPml4 := 0x101000
  cr3 := 0x200000

def bootProc : Proc where
  vm :=
    { mms := fun k => if k = 0 then some ⟨none, 0x600000, 0x600000, 0x7FFFFF000000, 0⟩ else none
      vmas := fun _ => ⟨0, 0, 0, 0, 0⟩
      links := ⟨fun _ => none, fun _ => none⟩
      live := fun _ => false
      bound := 0
      kmapPtr := 0xFFFF800100000000 }
  pt := bootPt

/-- One anonymous page where `sys_mmap` puts the first one. -/
def oneMapping : List Mapping := [⟨0x7FFEFFFFF000, 0x201000, ptePresent ||| pteUser ||| pteWrite⟩]

theorem unmap_agrees_iff_oneMapping :
    ∃ t, sysMunmap (mapAll bootProc oneMapping) 0 0x7FFEFFFFF000 4096 (fun _ => none) = (0, t) ∧
      (Agrees (mapAll bootProc oneMapping).pt t.pt 0x7FFEFFFFF000 4096 ↔
        UnmapOk (mapAll bootProc oneMapping).pt 0x7FFEFFFFF000 4096) := by
  have h : sysMunmap (mapAll bootProc oneMapping) 0 0x7FFEFFFFF000 4096 (fun _ => none) =
      (0, (sysMunmap (mapAll bootProc oneMapping) 0 0x7FFEFFFFF000 4096 (fun _ => none)).2) :=
    Prod.ext (by decide +kernel) rfl
  exact ⟨_, h, unmap_agrees_iff _ _ _ _ _ _ _ (by decide +kernel) h⟩

/-- **`sys_munmap` leaves the page mapped**: `vmm_unmap_page` looks for it under `kernel_pml4`. -/
theorem not_agrees_oneMapping :
    readCr3 bootProc.pt ≠ bootProc.pt.kernelPml4 ∧
      ∃ t, sysMunmap (mapAll bootProc oneMapping) 0 0x7FFEFFFFF000 4096 (fun _ => none) = (0, t) ∧
        ¬Agrees (mapAll bootProc oneMapping).pt t.pt 0x7FFEFFFFF000 4096 := by
  refine ⟨by decide, _, Prod.ext (by decide +kernel : _ = (0 : Int)) rfl, fun hag => ?_⟩
  have hin : InRange 0x7FFEFFFFF000 4096 0x7FFEFFFFF000 := ⟨by decide, by decide, by decide, by decide⟩
  exact absurd (hag.unmapped _ hin) (by decide +kernel)

end Paging
end Pico
