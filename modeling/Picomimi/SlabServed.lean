import Picomimi.SlabCalls
/-!
# SlabServed — whether `kmalloc` finds the free block that is there

`kmalloc` looks for one only when `heap_freed` is not zero.  The counter follows the free bytes through every path but
two: a block that is split is not taken from it, so that it runs ahead; and a merge takes the size of a header from it
although the merged block has grown by one, so that it falls behind.  `served_of_run`: where no `kfree` merges, a request
that a free block has room for is served, after any run.
-/
namespace Pico
namespace Slab

open Lib Lib.Tiling

variable {s s' : State} {bs : List SlabHdr} {m : Mem} {op : Op} {p bump size : Nat}

/-! ## The search -/

theorem firstFit_le : ∀ {fuel off : Nat}, firstFit m bump size fuel off = some p → p + slabHdrSz ≤ bump
  | fuel + 1, off, h => by
    unfold firstFit at h
    by_cases hoff : off + slabHdrSz ≤ bump
    · rw [if_pos hoff] at h
      dsimp only at h
      by_cases hfit : (hdrAt m off).magic = slabMagicFree ∧ size ≤ (hdrAt m off).size
      · rw [if_pos hfit] at h
        cases h
        exact hoff
      · rw [if_neg hfit] at h
        exact firstFit_le h
    · rw [if_neg hoff] at h
      cases h

/-- **A free block of the walk that fits is handed out**: the first of them, and not `NULL`. -/
def Served (h : Heap) (size flags : Nat) : Prop :=
  (∃ b ∈ h.headers, b.Fits (alignUp size 16)) →
    ∃ off, firstFit h.heap h.heapBump (alignUp size 16) (h.heapBump + 1) 0 = some off ∧
      (kmalloc h size flags).1 = some (off + slabHdrSz)

/-- **`kmalloc` searches when `heap_freed` is not zero**, whatever the headers say. -/
theorem served_iff (h : Heap) (size flags : Nat) :
    Served h size flags ↔ (∀ b ∈ h.headers, ¬b.Fits (alignUp size 16)) ∨ (size ≠ 0 ∧ h.heapFreed ≠ 0) := by
  unfold Served
  rw [kmalloc_fst]
  cases hfit : firstFit h.heap h.heapBump (alignUp size 16) (h.heapBump + 1) 0 with
  | none =>
    have hnone := firstFit_eq_none.1 hfit
    refine iff_of_true (fun ⟨b, hb, hb'⟩ => absurd hb' (hnone b hb)) (.inl hnone)
  | some off =>
    have hsome : ∃ b ∈ h.headers, b.Fits (alignUp size 16) := by
      by_contra hno
      have hnone : firstFit h.heap h.heapBump (alignUp size 16) (h.heapBump + 1) 0 = none :=
        firstFit_eq_none.2 fun b hb hb' => hno ⟨b, hb, hb'⟩
      rw [hfit] at hnone
      cases hnone
    obtain ⟨b, hb, hb'⟩ := hsome
    constructor
    · intro hserved
      obtain ⟨off', hoff, hptr⟩ := hserved ⟨b, hb, hb'⟩
      cases hoff
      have hle := firstFit_le hfit
      refine .inr ⟨fun h0 => ?_, fun hfreed => ?_⟩
      · rw [blockFor, if_pos h0] at hptr
        cases hptr
      · -- without the search the block is carved behind the walk, where no header is
        unfold blockFor at hptr
        rw [if_neg (Nat.not_lt.2 (Nat.le_of_eq hfreed))] at hptr
        dsimp only at hptr
        split at hptr
        · cases hptr
        · split at hptr
          · cases hptr
          · have hbump := Option.some.inj hptr
            unfold slabHdrSz at hle
            omega
    · rintro (hno | ⟨h0, hfreed⟩) -
      · exact absurd hb' (hno b hb)
      · refine ⟨off, rfl, ?_⟩
        rw [blockFor, if_neg h0, if_pos (Nat.pos_of_ne_zero hfreed), hfit]

/-! ## Runs -/

/-- **Every request** of at least one byte, and at most the heap. -/
def ServesAll (h : Heap) : Prop := ∀ size flags, 0 < size → size ≤ heapSize → Served h size flags

instance (h : Heap) (ptr : Nat) : Decidable (Merges h ptr) := inferInstanceAs (Decidable (_ ∧ _))

/-- A `kfree` does not merge its block with the next one. -/
def FreesAlone (s : State) : Op → Prop
  | .kfree ptr => ¬Merges s.h ptr
  | _ => True

instance (s : State) : ∀ op, Decidable (FreesAlone s op)
  | .kmalloc _ _ => isTrue trivial
  | .kfree ptr => inferInstanceAs (Decidable (¬Merges s.h ptr))
  | .write _ _ _ => isTrue trivial

/-- **A free block is counted**, and so `kmalloc` searches. -/
theorem Inv.servesAll (hi : Inv s bs) (hc : Counts s.h bs) : ServesAll s.h := by
  intro size flags hpos hmax
  have hw : heapSize + 15 < word64 := by decide
  obtain ⟨hle, -⟩ := alignUp_bounds (x := size) (show 0 < 16 by decide) (by omega)
  rw [served_iff]
  by_cases hfit : ∃ b ∈ s.h.headers, b.Fits (alignUp size 16)
  · obtain ⟨b, hb, hfree, hlong⟩ := hfit
    rw [hi.headers_eq] at hb
    have hcounted := Nat.le_trans (le_freeBytes hb hfree) hc.le
    exact .inr ⟨by omega, by omega⟩
  · exact .inl fun b hb hb' => hfit ⟨b, hb, hb'⟩

/-- **A step that does not merge keeps the counter right.** -/
theorem step_counts (hi : ∃ bs, Inv s bs ∧ Counts s.h bs) (hok : FreesAlone s op) (h : step s op = some s') :
    ∃ bs, Inv s' bs ∧ Counts s'.h bs := by
  obtain ⟨bs, hi, hc⟩ := hi
  cases op with
  | kmalloc size flags =>
    simp only [step] at h
    by_cases hsize : size ≤ heapSize
    · rw [if_pos hsize] at h
      rcases hi.kmalloc hsize flags with hk | ⟨ptr, h', bs', hk, hi', hcount⟩
      · rw [hk] at h
        cases h
        exact ⟨bs, hi, hc⟩
      · rw [hk] at h
        cases h
        exact ⟨bs', hi', hcount hc⟩
    · rw [if_neg hsize] at h
      cases h
  | kfree ptr =>
    simp only [step] at h
    by_cases hlive : s.live.any (fun c => c.ptr = ptr) = true
    · rw [if_pos hlive] at h
      cases h
      obtain ⟨c, hmem, rfl⟩ := exists_client hlive
      obtain ⟨bs', hi', hcount⟩ := hi.kfree hmem
      exact ⟨bs', hi', hcount hok hc⟩
    · rw [if_neg hlive] at h
      cases h
  | write ptr i v =>
    simp only [step] at h
    by_cases hw : s.live.any (fun c => c.ptr = ptr) = true ∧ i < payloadLen s.h ptr
    · rw [if_pos hw] at h
      cases h
      obtain ⟨hlive, hlt⟩ := hw
      obtain ⟨c, hmem, rfl⟩ := exists_client hlive
      exact ⟨bs, hi.write_client hmem hlt v, hc.le, hc.above⟩
    · rw [if_neg hw] at h
      cases h

/-- **Where no `kfree` merges, a free block that is long enough is always found**, whatever was split, reused, freed and
written before. -/
theorem served_of_run (l : List Op) (s s' : State) (h0 : machine.init s) (h : machine.RunOk FreesAlone s l s') :
    ServesAll s'.h := by
  have hinit : Counts s.h [] := by
    obtain ⟨⟨h, hh⟩, -⟩ := h0
    rw [hh]
    exact ⟨Nat.le_refl _, Nat.le_refl _⟩
  obtain ⟨bs, hi, hc⟩ := machine.runOk_invariant (P := fun s => ∃ bs, Inv s bs ∧ Counts s.h bs)
    (fun _ _ _ hP hok hs => step_counts hP hok hs) l s s' ⟨[], Inv.init h0, hinit⟩ h
  exact hi.servesAll hc

/-- Two blocks are freed, the first is taken whole again and the second split. -/
theorem served_of_run_split : ∃ s, machine.RunOk FreesAlone bootHeap
    [.kmalloc 16 0, .kmalloc 16 0, .kmalloc 100 0, .kmalloc 16 0, .kfree 8, .kfree 56, .kmalloc 9 gfpZero, .kmalloc 20 0]
      s ∧ (∃ b ∈ s.h.headers, b.Fits 16) ∧ ServesAll s.h := by
  have hrun : ((machine.check FreesAlone bootHeap
    [.kmalloc 16 0, .kmalloc 16 0, .kmalloc 100 0, .kmalloc 16 0, .kfree 8, .kfree 56, .kmalloc 9 gfpZero,
      .kmalloc 20 0]).any fun s => ∃ b ∈ s.h.headers, b.Fits 16) = true := by decide +kernel
  obtain ⟨s, hs, hfit⟩ := (Option.any_eq_true _ _).1 hrun
  have hok := machine.runOk_of_check hs
  exact ⟨s, hok, of_decide_eq_true hfit, served_of_run _ bootHeap s ⟨⟨_, rfl⟩, rfl⟩ hok⟩

/-- Three blocks of 16 bytes and one of the rest.  The middle one of the three is freed first, so that the first takes it
in; taking the merged block back and freeing the third leaves `heap_freed` where it began, and the free block is not
found. -/
theorem not_served : ∃ s, machine.run bootHeap
    [.kmalloc 16 0, .kmalloc 16 0, .kmalloc 16 0, .kmalloc 67108784 0, .kfree 32, .kfree 8, .kmalloc 32 0, .kfree 56]
      = some s ∧ (kmalloc s.h 16 0).1 = none ∧ ¬Served s.h 16 0 := by
  have hrun : ((machine.run bootHeap
    [.kmalloc 16 0, .kmalloc 16 0, .kmalloc 16 0, .kmalloc 67108784 0, .kfree 32, .kfree 8, .kmalloc 32 0,
      .kfree 56]).any fun s => (kmalloc s.h 16 0).1 = none ∧
        ∃ b ∈ s.h.headers, b.Fits (alignUp 16 16)) = true := by decide +kernel
  obtain ⟨s, hs, hrun⟩ := (Option.any_eq_true _ _).1 hrun
  obtain ⟨hnull, hfit⟩ := of_decide_eq_true hrun
  refine ⟨s, hs, hnull, fun hserved => ?_⟩
  obtain ⟨off, -, hptr⟩ := hserved hfit
  rw [hnull] at hptr
  cases hptr

end Slab
end Pico
