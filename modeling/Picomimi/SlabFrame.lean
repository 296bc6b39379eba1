import Picomimi.SlabRun
/-!
# SlabFrame — which bytes the heap leaves alone

`kmalloc` writes into the free block it takes or behind the carved region, and only into headers there unless it is asked
to clear; `kfree` writes into the header of the block it frees.  So a payload keeps its bytes under every step of the
other clients (`step_keeps`), and what `kmalloc` hands out holds the bytes that were there before (`kmalloc_bytes`).
-/
namespace Pico
namespace Slab

open Lib Lib.Tiling

variable {s s' : State} {bs : List SlabHdr} {h h' : Heap} {m : Mem} {b : SlabHdr} {c : Client}
  {off p ptr n size flags x : Nat}

theorem setSize_of_apart (h : x < off ∨ off + 4 ≤ x) (size : Nat) : setSize m off size x = m x :=
  m.write32_of_apart off size h

theorem setMagic_of_apart (h : x < off + 4 ∨ off + 8 ≤ x) (magic : Nat) : setMagic m off magic x = m x :=
  m.write32_of_apart (off + 4) magic h

/-- **Taking a block** writes into its header and into the header of the rest. -/
theorem takeBlock_apart (hread : hdrAt h.heap off = b) (hn : n ≤ b.size)
    (hx : x < off ∨ off + slabHdrSz + b.size ≤ x ∨ (off + slabHdrSz ≤ x ∧ x < off + slabHdrSz + n)) :
    (takeBlock h off n).heap x = h.heap x := by
  unfold slabHdrSz at hx
  unfold takeBlock
  rw [hread]
  by_cases hs : n + slabHdrSz + 16 ≤ b.size
  · rw [if_pos hs]
    unfold slabHdrSz at hs
    show setMagic (setSize (setMagic (setSize h.heap (off + 8 + n) _) (off + 8 + n) _) off n) off _ x = _
    rw [setMagic_of_apart (by omega), setSize_of_apart (by omega), setMagic_of_apart (by omega),
      setSize_of_apart (by omega)]
  · rw [if_neg hs]
    exact setMagic_of_apart (by omega) _

theorem slabBump_apart (hb : slabBump h n = (some ptr, h')) (hx : x < h.heapBump ∨ ptr ≤ x) :
    h'.heap x = h.heap x := by
  simp only [slabBump] at hb
  by_cases hfull : heapSize < add64 h.heapBump (add64 slabHdrSz n)
  · rw [if_pos hfull] at hb
    cases hb
  · rw [if_neg hfull] at hb
    cases hb
    unfold slabHdrSz at hx
    show setMagic (setSize h.heap h.heapBump n) h.heapBump slabMagicAlloc x = _
    rw [setMagic_of_apart (by omega), setSize_of_apart (by omega)]

theorem zeroPayload_apart (hx : x < ptr ∨ ptr + n ≤ x) : (zeroPayload h flags ptr n).heap x = h.heap x := by
  unfold zeroPayload
  by_cases hf : flags &&& gfpZero = 0
  · rw [if_pos hf]
  · rw [if_neg hf]
    exact if_neg (by omega)

/-- **Freeing a block** writes into its header. -/
theorem kfree_apart (hx : x < off ∨ off + slabHdrSz ≤ x) : (kfree h (some (off + slabHdrSz))).heap x = h.heap x := by
  unfold slabHdrSz at hx
  have hoff : off + slabHdrSz - slabHdrSz = off := Nat.add_sub_cancel _ _
  simp only [kfree, hoff]
  by_cases hfree : (hdrAt h.heap off).magic = slabMagicFree
  · rw [if_pos hfree]
  rw [if_neg hfree]
  by_cases halloc : (hdrAt h.heap off).magic ≠ slabMagicAlloc
  · rw [if_pos halloc]
  rw [if_neg halloc]
  by_cases hnext : off + slabHdrSz + (hdrAt h.heap off).size + slabHdrSz ≤ h.heapBump ∧
      (hdrAt (setMagic h.heap off slabMagicFree) (off + slabHdrSz + (hdrAt h.heap off).size)).magic = slabMagicFree
  · rw [if_pos hnext]
    show setSize (setMagic h.heap off slabMagicFree) off _ x = _
    rw [setSize_of_apart (by omega), setMagic_of_apart (by omega)]
  · rw [if_neg hnext]
    exact setMagic_of_apart (by omega) _

/-! ## Calls -/

/-- The payload a request of `size` bytes gets: the first free block that is long enough, else the virgin region. -/
def blockFor (h : Heap) (size : Nat) : Option Nat :=
  if size = 0 then none
  else
    match if 0 < h.heapFreed then firstFit h.heap h.heapBump (alignUp size 16) (h.heapBump + 1) 0 else none with
    | some off => some (off + slabHdrSz)
    | none =>
      if heapSize < add64 h.heapBump (add64 slabHdrSz (alignUp size 16)) then none else some (h.heapBump + slabHdrSz)

theorem kmalloc_fst (h : Heap) (size flags : Nat) : (kmalloc h size flags).1 = blockFor h size := by
  unfold kmalloc blockFor
  by_cases h0 : size = 0
  · rw [if_pos h0, if_pos h0]
  rw [if_neg h0, if_neg h0]
  dsimp only
  generalize (if 0 < h.heapFreed then firstFit h.heap h.heapBump (alignUp size 16) (h.heapBump + 1) 0 else none) = found
  cases found with
  | some off => rfl
  | none =>
    by_cases hfull : heapSize < add64 h.heapBump (add64 slabHdrSz (alignUp size 16))
    · simp only [slabBump, if_pos hfull]
    · simp only [slabBump, if_neg hfull]

/-- **A request of more than the heap is refused** when the sums of the call do not wrap. -/
theorem Inv.kmalloc_large (hi : Inv s bs) (hsize : heapSize < size) (hround : size + 15 < word64)
    (hsum : s.h.heapBump + (slabHdrSz + alignUp size 16) < word64) (flags : Nat) :
    Slab.kmalloc s.h size flags = (none, s.h) := by
  obtain ⟨hle, -⟩ := alignUp_bounds (x := size) (show 0 < 16 by decide) hround
  rcases kmalloc_cases s.h size flags with ⟨-, h⟩ | ⟨off, -, hfit, -⟩ | ⟨-, ⟨-, h⟩ | ⟨ptr, h', hb, -⟩⟩
  · exact h
  · obtain ⟨q, b, hq, -, -, hlen⟩ := firstFit_some hi.walk hfit
    have hspan := hq.le_span
    have heq := hi.span_eq
    have hbump := hi.bump_le
    omega
  · exact h
  · have htotal : add64 s.h.heapBump (add64 slabHdrSz (alignUp size 16)) =
        s.h.heapBump + (slabHdrSz + alignUp size 16) := by
      rw [add64_of_lt (a := slabHdrSz) (by omega), add64_of_lt hsum]
    simp only [slabBump, htotal] at hb
    rw [if_pos (by omega)] at hb
    cases hb

theorem Inv.payload_lt_bump (hi : Inv s bs) (hc : c ∈ s.live) {i : Nat} (h : i < c.req) : c.ptr + i < s.h.heapBump := by
  obtain ⟨p, b, hb, hptr, -, hreq⟩ := hi.holds c hc
  have hle := hb.le_span
  have hspan := hi.span_eq
  omega

/-- **`kmalloc` leaves the payloads alone.** -/
theorem Inv.kmalloc_keeps (hi : Inv s bs) (hk : Slab.kmalloc s.h size flags = (some ptr, h')) (hc : c ∈ s.live)
    {i : Nat} (hlt : i < c.req) : h'.heap (c.ptr + i) = s.h.heap (c.ptr + i) := by
  have hbump := hi.payload_lt_bump hc hlt
  rcases kmalloc_cases s.h size flags with ⟨-, h⟩ | ⟨off, -, hfit, h⟩ | ⟨-, ⟨-, h⟩ | ⟨ptr', g, hb, h⟩⟩
  · rw [h] at hk
    cases hk
  · rw [h] at hk
    cases hk
    obtain ⟨q, b, hq, rfl, hfree, hlen⟩ := firstFit_some hi.walk hfit
    obtain ⟨p, d, hd, hptr, hm, hreq⟩ := hi.holds c hc
    have hapart : c.ptr + i < 0 + q ∨ 0 + q + slabHdrSz + b.size ≤ c.ptr + i := by
      rcases AtPos.apart hq hd with ⟨-, rfl⟩ | h | h
      · exact absurd (hm.symm.trans hfree) alloc_ne_free
      · exact .inr (by omega)
      · exact .inl (by omega)
    rw [zeroPayload_apart (by omega), takeBlock_apart (b := b) (by rw [Nat.zero_add]; exact hq.read hi.walk) hlen
      (by omega)]
  · rw [h] at hk
    cases hk
  · rw [h] at hk
    cases hk
    have hat : s.h.heapBump ≤ ptr := by
      have hfst := congrArg Prod.fst hb
      simp only [slabBump] at hfst
      split at hfst
      · cases hfst
      · cases hfst
        exact Nat.le_add_right _ _
    rw [zeroPayload_apart (.inl (by omega)), slabBump_apart hb (.inl hbump)]

/-- **`kmalloc` does not clear**: what it hands out holds the bytes that were there. -/
theorem Inv.kmalloc_bytes (hi : Inv s bs) (hsize : size ≤ heapSize) (hf : flags &&& gfpZero = 0)
    (hk : Slab.kmalloc s.h size flags = (some ptr, h')) {i : Nat} (hlt : i < size) :
    h'.heap (ptr + i) = s.h.heap (ptr + i) := by
  have hw : heapSize + 15 < word64 := by decide
  obtain ⟨hle, -⟩ := alignUp_bounds (x := size) (show 0 < 16 by decide) (by omega)
  have hkeep : ∀ (g : Heap) (a n : Nat), Slab.zeroPayload g flags a n = g := fun g a n => if_pos hf
  rcases kmalloc_cases s.h size flags with ⟨-, h⟩ | ⟨off, -, hfit, h⟩ | ⟨-, ⟨-, h⟩ | ⟨ptr', g, hb, h⟩⟩
  · rw [h] at hk
    cases hk
  · rw [h, hkeep] at hk
    cases hk
    obtain ⟨q, b, hq, rfl, -, hlen⟩ := firstFit_some hi.walk hfit
    exact takeBlock_apart (b := b) (by rw [Nat.zero_add]; exact hq.read hi.walk) hlen (by omega)
  · rw [h] at hk
    cases hk
  · rw [h, hkeep] at hk
    cases hk
    exact slabBump_apart hb (.inr (Nat.le_add_right _ _))

/-- **Freeing one client's block leaves the other payloads alone.** -/
theorem Inv.kfree_keeps (hi : Inv s bs) {d : Client} (hd : d ∈ s.live) (hc : c ∈ s.live) (hne : c.ptr ≠ d.ptr)
    {i : Nat} (hlt : i < c.req) : (Slab.kfree s.h (some d.ptr)).heap (c.ptr + i) = s.h.heap (c.ptr + i) := by
  obtain ⟨p, b, hb, hptr, -, hreq⟩ := hi.holds c hc
  obtain ⟨q, e, he, hdptr, -, -⟩ := hi.holds d hd
  rw [hdptr]
  refine kfree_apart ?_
  rcases AtPos.apart hb he with ⟨rfl, -⟩ | h | h
  · exact absurd (hptr.trans hdptr.symm) hne
  · exact .inl (by omega)
  · exact .inr (by omega)

/-- The step does not touch the block at `ptr`: it belongs to someone else. -/
def Op.spares (ptr : Nat) : Op → Bool
  | .kmalloc _ _ => true
  | .kfree q => q != ptr
  | .write q _ _ => q != ptr

/-- **A payload outlives the steps of the other clients**, and so do its bytes. -/
theorem Inv.step_keeps (hi : Inv s bs) {op : Op} (h : step s op = some s') (hc : c ∈ s.live)
    (hop : op.spares c.ptr = true) : c ∈ s'.live ∧ ∀ i, i < c.req → s'.h.heap (c.ptr + i) = s.h.heap (c.ptr + i) := by
  cases op with
  | kmalloc size flags =>
    simp only [step] at h
    by_cases hsize : size ≤ heapSize
    · rw [if_pos hsize] at h
      cases hk : Slab.kmalloc s.h size flags with
      | mk r h' =>
        rw [hk] at h
        cases r with
        | none =>
          cases h
          rcases hi.kmalloc hsize flags with hn | ⟨ptr, g, bs', hs, -⟩
          · rw [hn] at hk
            cases hk
            exact ⟨hc, fun _ _ => rfl⟩
          · rw [hs] at hk
            cases hk
        | some ptr =>
          cases h
          exact ⟨List.mem_cons_of_mem _ hc, fun i hlt => hi.kmalloc_keeps hk hc hlt⟩
    · rw [if_neg hsize] at h
      cases h
  | kfree ptr =>
    have hne : c.ptr ≠ ptr := fun he => by
      rw [Op.spares, he] at hop
      simp at hop
    simp only [step] at h
    by_cases hlive : s.live.any (fun c => c.ptr = ptr) = true
    · rw [if_pos hlive] at h
      cases h
      obtain ⟨d, hd, rfl⟩ := exists_client hlive
      exact ⟨List.mem_filter.2 ⟨hc, by simpa using hne⟩, fun i hlt => hi.kfree_keeps hd hc hne hlt⟩
    · rw [if_neg hlive] at h
      cases h
  | write ptr j v =>
    have hne : c.ptr ≠ ptr := fun he => by
      rw [Op.spares, he] at hop
      simp at hop
    simp only [step] at h
    by_cases hw : s.live.any (fun c => c.ptr = ptr) = true ∧ j < payloadLen s.h ptr
    · rw [if_pos hw] at h
      cases h
      obtain ⟨hlive, hj⟩ := hw
      obtain ⟨d, hd, rfl⟩ := exists_client hlive
      refine ⟨hc, fun i hlt => if_neg ?_⟩
      obtain ⟨p, b, hb, hptr, -, hreq⟩ := hi.holds c hc
      obtain ⟨q, e, he, hdptr, -, -⟩ := hi.holds d hd
      rw [Inv.payloadLen_eq hi he hdptr] at hj
      rcases AtPos.apart hb he with ⟨rfl, -⟩ | h | h
      · exact absurd (hptr.trans hdptr.symm) hne
      · omega
      · omega
    · rw [if_neg hw] at h
      cases h

end Slab
end Pico
