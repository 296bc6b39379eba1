import Picomimi.SlabBlocks
/-!
# SlabStep — each path of `kmalloc` and `kfree` keeps the block list

One lemma for each path: the block taken whole, the block split, the block carved from the virgin region, the block
freed alone and the block freed together with its right neighbour; and one for a client's write to its own payload.
-/
namespace Pico
namespace Slab

open Lib Lib.Tiling

theorem allocBytes_le_of_mem : ∀ {bs : List SlabHdr} {b : SlabHdr}, b ∈ bs → b.magic = slabMagicAlloc →
    b.size ≤ allocBytes bs
  | x :: bs, b, hb, hm => by
    simp only [allocBytes]
    rcases List.mem_cons.1 hb with rfl | hb
    · rw [if_pos hm]
      omega
    · have := allocBytes_le_of_mem hb hm
      omega

/-- **No client holds a free block**: its pointer is before the block's payload or after the next header. -/
theorem Inv.live_apart {s : State} {bs : List SlabHdr} {p : Nat} {b : SlabHdr} (hi : Inv s bs) (hb : BlockAt bs p b)
    (hfree : b.magic = slabMagicFree) {c : Client} (hc : c ∈ s.live) :
    c.ptr < p + slabHdrSz ∨ p + (slabHdrSz + b.size) + slabHdrSz ≤ c.ptr := by
  obtain ⟨q, d, hd, hptr, hm, _⟩ := hi.holds c hc
  rcases AtPos.apart hb hd with ⟨-, rfl⟩ | h | h
  · exact absurd (hm.symm.trans hfree) alloc_ne_free
  · exact .inr (by omega)
  · exact .inl (by unfold slabHdrSz at *; omega)

/-- **Two clients of different pointers hold blocks apart**: another client's pointer is outside the block. -/
theorem Inv.live_apart_of_ne {s : State} {bs : List SlabHdr} {p : Nat} {b : SlabHdr} (hi : Inv s bs)
    (hb : BlockAt bs p b) {c : Client} (hc : c ∈ s.live) (hne : c.ptr ≠ p + slabHdrSz) :
    c.ptr < p + slabHdrSz ∨ p + (slabHdrSz + b.size) + slabHdrSz ≤ c.ptr := by
  obtain ⟨q, d, hd, hptr, _, _⟩ := hi.holds c hc
  rcases AtPos.apart hb hd with ⟨rfl, -⟩ | h | h
  · exact absurd hptr hne
  · exact .inr (by omega)
  · exact .inl (by unfold slabHdrSz at *; omega)

/-- **A write inside one payload** leaves the block where it is. -/
theorem Inv.write {s : State} {bs : List SlabHdr} {p : Nat} {b : SlabHdr} (hi : Inv s bs) (hb : BlockAt bs p b)
    {m : Mem} (hm : ∀ x, x ≤ p ∨ p + slabHdrSz + b.size ≤ x → hdrAt m x = hdrAt s.h.heap x) :
    Inv ⟨{ s.h with heap := m }, s.live⟩ bs := by
  have hlive : ∀ c ∈ s.live,
      (∃ q d, BlockAt [b] q d ∧ c.ptr = p + q + slabHdrSz ∧ d.magic = slabMagicAlloc ∧ c.req ≤ d.size) ∨
      (c ∈ s.live ∧ (c.ptr < p + slabHdrSz ∨ p + (slabHdrSz + b.size) + slabHdrSz ≤ c.ptr)) := by
    intro c hc
    by_cases hp : c.ptr = p + slabHdrSz
    · obtain ⟨q, d, hd, hptr, hmag, hr⟩ := hi.holds c hc
      obtain rfl : q = p := by omega
      rcases hd.apart hb with ⟨-, rfl⟩ | h | h
      · exact .inl ⟨0, d, atPos_singleton d, hptr, hmag, hr⟩
      · unfold slabHdrSz at h
        omega
      · unfold slabHdrSz at h
        omega
    · exact .inr ⟨hc, hi.live_apart_of_ne hb hc hp⟩
  obtain ⟨bs', h, hr⟩ : ∃ bs', Inv ⟨{ s.h with heap := m }, s.live⟩ bs' ∧
      Replaced SlabHdr.size slabHdrSz bs p [b] [b] bs' := by
    refine hi.edit hb.segAt rfl [b] rfl rfl ?_ (tiles_singleton ?_) ?_ rfl hi.nodup hlive
    · intro x hx
      simp only [span_cons, span_nil] at hx
      exact hm x (by unfold slabHdrSz at *; omega)
    · exact (hm p (.inl (Nat.le_refl _))).trans (hb.read hi.walk)
    · intro c hc
      rw [List.mem_singleton.1 hc]
      exact hi.tagged b hb.mem
  exact hr.eq ▸ h

theorem Inv.zeroPayload {s : State} {bs : List SlabHdr} {p n : Nat} {b : SlabHdr} (hi : Inv s bs)
    (hb : BlockAt bs p b) (hn : n ≤ b.size) (flags : Nat) :
    Inv ⟨Slab.zeroPayload s.h flags (p + slabHdrSz) n, s.live⟩ bs := by
  unfold Slab.zeroPayload
  by_cases hf : flags &&& gfpZero = 0
  · rw [if_pos hf]
    exact hi
  · rw [if_neg hf]
    refine hi.write hb (fun x hx => hdrAt_fill_of_apart _ _ ?_)
    unfold slabHdrSz at *
    omega

/-! ## `kmalloc` -/

/-- The clients once the free block at `p` is handed to `c`. -/
theorem Inv.nodup_cons {s : State} {bs : List SlabHdr} {p : Nat} {b : SlabHdr} (hi : Inv s bs)
    (hb : BlockAt bs p b) (hfree : b.magic = slabMagicFree) {c : Client} (hptr : c.ptr = p + slabHdrSz) :
    ((c :: s.live).map Client.ptr).Nodup := by
  refine List.nodup_cons.2 ⟨fun hmem => ?_, hi.nodup⟩
  obtain ⟨d, hd, hdp⟩ := List.mem_map.1 hmem
  have := hi.live_apart hb hfree hd
  unfold slabHdrSz at *
  omega

/-- **A free block taken whole.** -/
theorem Inv.take_whole {s : State} {bs : List SlabHdr} {p n : Nat} {b : SlabHdr} (hi : Inv s bs)
    (hb : BlockAt bs p b) (hfree : b.magic = slabMagicFree) (hn : n ≤ b.size) (hns : ¬ n + slabHdrSz + 16 ≤ b.size)
    (c : Client) (hptr : c.ptr = p + slabHdrSz) (hreq : c.req ≤ n) :
    ∃ bs', Inv ⟨takeBlock s.h p n, c :: s.live⟩ bs' ∧
      Replaced SlabHdr.size slabHdrSz bs p [b] [⟨b.size, slabMagicAlloc⟩] bs' := by
  have hread := hb.read hi.walk
  have hle := hb.le_span
  have hspan := hi.span_eq
  have hbump := hi.bump_le
  have hmax : heapSize < word64 := by decide
  have hused := hi.alloc_le
  unfold takeBlock
  rw [hread, if_neg hns]
  refine hi.edit hb.segAt rfl _ rfl rfl ?_ (tiles_singleton ?_) ?_ ?_ (hi.nodup_cons hb hfree hptr) ?_
  · intro x hx
    simp only [span_cons, span_nil] at hx
    exact hdrAt_setMagic_of_apart _ _ (by unfold slabHdrSz at *; omega)
  · show hdrAt (setMagic s.h.heap p slabMagicAlloc) p = _
    rw [hdrAt_setMagic, hread]
    rfl
  · intro d hd
    rw [List.mem_singleton.1 hd]
    exact .inl rfl
  · have hno : allocBytes [b] = 0 := by simp [allocBytes, hfree, alloc_ne_free.symm]
    have hyes : allocBytes [⟨b.size, slabMagicAlloc⟩] = b.size := by simp [allocBytes]
    simp only [hdrAt_setMagic, hread, hno, hyes]
    have hsz : b.size ≤ heapSize := by omega
    have hw : heapSize + heapSize < word64 := by decide
    rw [add64_of_lt (by omega)]
    rfl
  · intro d hd
    rcases List.mem_cons.1 hd with rfl | hd
    · exact .inl ⟨0, _, atPos_singleton _, hptr, rfl, Nat.le_trans hreq hn⟩
    · exact .inr ⟨hd, hi.live_apart hb hfree hd⟩

/-- **A free block split** in the block handed out and a free rest. -/
theorem Inv.take_split {s : State} {bs : List SlabHdr} {p n : Nat} {b : SlabHdr} (hi : Inv s bs)
    (hb : BlockAt bs p b) (hfree : b.magic = slabMagicFree) (hs : n + slabHdrSz + 16 ≤ b.size)
    (c : Client) (hptr : c.ptr = p + slabHdrSz) (hreq : c.req ≤ n) :
    ∃ bs', Inv ⟨takeBlock s.h p n, c :: s.live⟩ bs' ∧
      Replaced SlabHdr.size slabHdrSz bs p [b] [⟨n, slabMagicAlloc⟩, ⟨b.size - n - slabHdrSz, slabMagicFree⟩] bs' := by
  have hread := hb.read hi.walk
  have hle := hb.le_span
  have hspan := hi.span_eq
  have hbump := hi.bump_le
  have hmax : heapSize < 4294967296 := by decide
  have hused := hi.alloc_le
  have hhead : ∀ m : Mem, hdrAt (setMagic (setSize m p n) p slabMagicAlloc) p = ⟨n, slabMagicAlloc⟩ := by
    intro m
    rw [hdrAt_setMagic, hdrAt_setSize]
    simp only [SlabHdr.mk.injEq]
    exact ⟨Nat.mod_eq_of_lt (by omega), rfl⟩
  unfold takeBlock
  rw [hread, if_pos hs]
  simp only [hhead]
  have hlen : span SlabHdr.size slabHdrSz [⟨n, slabMagicAlloc⟩, ⟨b.size - n - slabHdrSz, slabMagicFree⟩] =
      span SlabHdr.size slabHdrSz [b] := by
    simp only [span_cons, span_nil]
    omega
  refine hi.edit hb.segAt rfl _ hlen rfl ?_ (hlen ▸ tiles_pair (hhead _) ?_) ?_ ?_ (hi.nodup_cons hb hfree hptr) ?_
  · intro x hx
    simp only [span_cons, span_nil] at hx
    have hp : p + slabHdrSz ≤ x ∨ x + slabHdrSz ≤ p := by unfold slabHdrSz at *; omega
    have ht : p + slabHdrSz + n + slabHdrSz ≤ x ∨ x + slabHdrSz ≤ p + slabHdrSz + n := by
      unfold slabHdrSz at *
      omega
    show hdrAt (setMagic (setSize (setMagic (setSize s.h.heap _ _) _ _) p n) p slabMagicAlloc) x = _
    rw [hdrAt_setMagic_of_apart _ _ hp, hdrAt_setSize_of_apart _ _ hp, hdrAt_setMagic_of_apart _ _ ht,
      hdrAt_setSize_of_apart _ _ ht]
  · have hp : p + slabHdrSz ≤ p + slabHdrSz + n ∨ p + slabHdrSz + n + slabHdrSz ≤ p := by omega
    show hdrAt (setMagic (setSize (setMagic (setSize s.h.heap _ _) _ _) p n) p slabMagicAlloc) _ = _
    rw [hdrAt_setMagic_of_apart _ _ hp, hdrAt_setSize_of_apart _ _ hp, hdrAt_setMagic, hdrAt_setSize]
    simp only [SlabHdr.mk.injEq]
    exact ⟨Nat.mod_eq_of_lt (by omega), rfl⟩
  · intro d hd
    simp only [List.mem_cons, List.not_mem_nil, or_false] at hd
    rcases hd with rfl | rfl
    · exact .inl rfl
    · exact .inr rfl
  · have hno : allocBytes [b] = 0 := by simp [allocBytes, hfree, alloc_ne_free.symm]
    have hyes : allocBytes [⟨n, slabMagicAlloc⟩, ⟨b.size - n - slabHdrSz, slabMagicFree⟩] = n := by
      simp [allocBytes, alloc_ne_free.symm]
    have hw : heapSize + heapSize < word64 := by decide
    simp only [hno, hyes]
    rw [add64_of_lt (by omega)]
    rfl
  · intro d hd
    rcases List.mem_cons.1 hd with rfl | hd
    · exact .inl ⟨0, _, ⟨[], _, rfl, rfl⟩, hptr, rfl, hreq⟩
    · exact .inr ⟨hd, hi.live_apart hb hfree hd⟩

/-- **A block carved from the virgin region.** -/
theorem Inv.bump {s : State} {bs : List SlabHdr} (hi : Inv s bs) {n ptr : Nat} {h' : Heap}
    (h : slabBump s.h n = (some ptr, h')) (hn : n < word64 - heapSize - slabHdrSz) (c : Client) (hptr : c.ptr = ptr)
    (hreq : c.req ≤ n) :
    Inv ⟨h', c :: s.live⟩ (bs ++ [⟨n, slabMagicAlloc⟩]) ∧ ptr = s.h.heapBump + slabHdrSz := by
  have hspan := hi.span_eq
  have hbump := hi.bump_le
  have hused := hi.alloc_le
  have hmax : heapSize < 4294967296 := by decide
  have hw : heapSize + heapSize < word64 := by decide
  have htotal : add64 slabHdrSz n = slabHdrSz + n := add64_of_lt (by unfold slabHdrSz at *; omega)
  have htop : add64 s.h.heapBump (slabHdrSz + n) = s.h.heapBump + (slabHdrSz + n) :=
    add64_of_lt (by unfold slabHdrSz at *; omega)
  simp only [slabBump, htotal, htop] at h
  by_cases hfull : heapSize < s.h.heapBump + (slabHdrSz + n)
  · rw [if_pos hfull] at h
    cases h
  · rw [if_neg hfull] at h
    simp only [Prod.mk.injEq, Option.some.injEq] at h
    obtain ⟨rfl, rfl⟩ := h
    refine ⟨?_, rfl⟩
    constructor
    · refine tiles_append.2 ⟨?_, ?_⟩
      · rw [Nat.zero_add, hspan]
        refine hi.walk.congr (fun x _ hx => ?_)
        have hp : s.h.heapBump + slabHdrSz ≤ x ∨ x + slabHdrSz ≤ s.h.heapBump := .inr hx
        show hdrAt (setMagic (setSize s.h.heap _ _) _ _) x = _
        rw [hdrAt_setMagic_of_apart _ _ hp, hdrAt_setSize_of_apart _ _ hp]
      · rw [Nat.zero_add, hspan]
        refine tiles_singleton ?_
        show hdrAt (setMagic (setSize s.h.heap _ _) _ _) _ = _
        rw [hdrAt_setMagic, hdrAt_setSize]
        simp only [SlabHdr.mk.injEq]
        exact ⟨Nat.mod_eq_of_lt (by omega), rfl⟩
    · exact Nat.le_of_not_lt hfull
    · intro b hb
      rcases List.mem_append.1 hb with hb | hb
      · exact hi.tagged b hb
      · exact .inl (by rw [List.mem_singleton.1 hb])
    · have h1 := hi.used
      show add64 s.h.heapUsed n = _
      have hyes : allocBytes [⟨n, slabMagicAlloc⟩] = n := by simp [allocBytes]
      rw [add64_of_lt (by omega), allocBytes_append, hyes, h1]
    · refine List.nodup_cons.2 ⟨fun hmem => ?_, hi.nodup⟩
      obtain ⟨d, hd, hdp⟩ := List.mem_map.1 hmem
      obtain ⟨q, b, hb, hq, -, -⟩ := hi.holds d hd
      have hle := hb.le_span
      unfold slabHdrSz at *
      omega
    · intro d hd
      rcases List.mem_cons.1 hd with rfl | hd
      · exact ⟨s.h.heapBump, _, ⟨bs, [], rfl, hspan.symm⟩, hptr, rfl, hreq⟩
      · obtain ⟨q, b, hb, hq⟩ := hi.holds d hd
        exact ⟨q, b, AtPos.append_iff.2 (.inl hb), hq⟩

/-- The block taken whole is taken from the counter; one that is split is not, and the counter is ahead by what was cut
off. -/
theorem takeBlock_heapFreed {h : Heap} {p n : Nat} {b : SlabHdr} (hread : hdrAt h.heap p = b) :
    (takeBlock h p n).heapFreed = if n + slabHdrSz + 16 ≤ b.size then h.heapFreed else sub64 h.heapFreed b.size := by
  unfold takeBlock
  rw [hread]
  dsimp only
  split
  · rfl
  · rfl

@[simp] theorem zeroPayload_heapFreed (h : Heap) (flags ptr size : Nat) :
    (zeroPayload h flags ptr size).heapFreed = h.heapFreed := by
  unfold zeroPayload
  split
  · rfl
  · rfl

/-- The counter does not depend on the bytes of the payloads. -/
theorem Counts.zeroPayload {h : Heap} {bs : List SlabHdr} (hc : Counts h bs) (flags ptr size : Nat) :
    Counts (Slab.zeroPayload h flags ptr size) bs :=
  ⟨by rw [zeroPayload_heapFreed]; exact hc.le, by rw [zeroPayload_heapFreed]; exact hc.above⟩

/-- **The block at `p` handed to `c`**, whole or split, and cleared when asked. -/
theorem Inv.take {s : State} {bs : List SlabHdr} {p n : Nat} {b : SlabHdr} (hi : Inv s bs) (hb : BlockAt bs p b)
    (hfree : b.magic = slabMagicFree) (hn : n ≤ b.size) (flags : Nat) (c : Client) (hptr : c.ptr = p + slabHdrSz)
    (hreq : c.req ≤ n) : ∃ bs', Inv ⟨Slab.zeroPayload (takeBlock s.h p n) flags c.ptr n, c :: s.live⟩ bs' ∧
      (Counts s.h bs → Counts (Slab.zeroPayload (takeBlock s.h p n) flags c.ptr n) bs') := by
  have hle := hb.le_span
  have hspan := hi.span_eq
  have hbump := hi.bump_le
  have hfreed := takeBlock_heapFreed (n := n) (hb.read hi.walk)
  rw [hptr]
  by_cases hs : n + slabHdrSz + 16 ≤ b.size
  · obtain ⟨bs', h', hr⟩ := hi.take_split hb hfree hs c hptr hreq
    have hat : BlockAt bs' (p + 0) ⟨n, slabMagicAlloc⟩ := hr.segAt.atPos ⟨[], _, rfl, rfl⟩
    refine ⟨bs', h'.zeroPayload hat (Nat.le_refl n) flags, fun hc => ?_⟩
    rw [if_pos hs] at hfreed
    have hrest : freeBytes [⟨n, slabMagicAlloc⟩, ⟨b.size - n - slabHdrSz, slabMagicFree⟩] = b.size - n - slabHdrSz := by
      simp [freeBytes, alloc_ne_free]
    refine (hc.replaced hr (Nat.le_succ _) ?_ ?_).zeroPayload _ _ _
    · rw [hfreed, hrest, freeBytes_free hfree]
      omega
    · rw [hfreed, hrest, freeBytes_free hfree]
      simp only [List.length_cons, List.length_nil]
      omega
  · obtain ⟨bs', h', hr⟩ := hi.take_whole hb hfree hn hs c hptr hreq
    have hat : BlockAt bs' (p + 0) ⟨b.size, slabMagicAlloc⟩ := hr.segAt.atPos (atPos_singleton _)
    refine ⟨bs', h'.zeroPayload hat hn flags, fun hc => ?_⟩
    have hlt := hc.lt hi
    have hmem := Nat.le_trans (le_freeBytes hb.mem hfree) hc.le
    rw [if_neg hs, sub64_of_le (by omega) (by omega)] at hfreed
    have hnone : freeBytes [⟨b.size, slabMagicAlloc⟩] = 0 := freeBytes_alloc rfl
    refine (hc.replaced hr (Nat.le_refl _) ?_ ?_).zeroPayload _ _ _
    · rw [hfreed, hnone, freeBytes_free hfree]
      omega
    · rw [hfreed, hnone, freeBytes_free hfree]
      omega

/-- **What a call of `kmalloc` can do**: refuse size 0, hand out the first block that fits, carve a block, or fail. -/
theorem kmalloc_cases (h : Heap) (size flags : Nat) :
    (size = 0 ∧ kmalloc h size flags = (none, h)) ∨
    (∃ off, 0 < h.heapFreed ∧ firstFit h.heap h.heapBump (alignUp size 16) (h.heapBump + 1) 0 = some off ∧
      kmalloc h size flags =
        (some (off + slabHdrSz), zeroPayload (takeBlock h off (alignUp size 16)) flags (off + slabHdrSz)
          (alignUp size 16))) ∨
    ((h.heapFreed = 0 ∨ firstFit h.heap h.heapBump (alignUp size 16) (h.heapBump + 1) 0 = none) ∧
      ((slabBump h (alignUp size 16) = (none, h) ∧ kmalloc h size flags = (none, h)) ∨
        ∃ ptr h', slabBump h (alignUp size 16) = (some ptr, h') ∧
          kmalloc h size flags = (some ptr, zeroPayload h' flags ptr (alignUp size 16)))) := by
  by_cases h0 : size = 0
  · exact .inl ⟨h0, by rw [kmalloc, if_pos h0]⟩
  refine .inr ?_
  rw [kmalloc, if_neg h0]
  have hbump : (slabBump h (alignUp size 16) = (none, h)) ∨
      ∃ ptr h', slabBump h (alignUp size 16) = (some ptr, h') := by
    simp only [slabBump]
    by_cases hf : heapSize < add64 h.heapBump (add64 slabHdrSz (alignUp size 16))
    · exact .inl (if_pos hf)
    · exact .inr ⟨_, _, if_neg hf⟩
  generalize hfound : (if 0 < h.heapFreed then
    firstFit h.heap h.heapBump (alignUp size 16) (h.heapBump + 1) 0 else none) = found
  cases found with
  | some off =>
    by_cases hfreed : 0 < h.heapFreed
    · rw [if_pos hfreed] at hfound
      exact .inl ⟨off, hfreed, hfound, by simp only [hfound, if_pos hfreed]⟩
    · rw [if_neg hfreed] at hfound
      cases hfound
  | none =>
    refine .inr ⟨?_, ?_⟩
    · by_cases hfreed : 0 < h.heapFreed
      · rw [if_pos hfreed] at hfound
        exact .inr hfound
      · exact .inl (by omega)
    · rcases hbump with hb | ⟨ptr, h', hb⟩
      · exact .inl ⟨hb, by simp only [hfound, hb]⟩
      · exact .inr ⟨ptr, h', hb, by simp only [hfound, hb]⟩

/-- A carved block is not counted. -/
theorem Counts.bump {h h' : Heap} {bs : List SlabHdr} {n ptr : Nat} (hc : Counts h bs)
    (hb : slabBump h n = (some ptr, h')) : Counts h' (bs ++ [⟨n, slabMagicAlloc⟩]) := by
  have hfreed : h'.heapFreed = h.heapFreed := by
    simp only [slabBump] at hb
    split at hb
    · cases hb
    · cases hb
      rfl
  have hsame : freeBytes (bs ++ [⟨n, slabMagicAlloc⟩]) = freeBytes bs := by
    rw [freeBytes_append, freeBytes_alloc rfl, Nat.add_zero]
  refine ⟨by rw [hsame, hfreed]; exact hc.le, ?_⟩
  rw [hsame, hfreed, List.length_append, List.length_singleton, Nat.succ_mul]
  have := hc.above
  omega

/-- **`kmalloc` keeps the block list**, whatever its size was rounded to: a call that fails changes nothing, a block it
returns is as long as the rounded size. -/
theorem Inv.kmalloc_block {s : State} {bs : List SlabHdr} (hi : Inv s bs) {size req : Nat}
    (hn : alignUp size 16 < word64 - heapSize - slabHdrSz) (hreq : req ≤ alignUp size 16) (flags : Nat) :
    Slab.kmalloc s.h size flags = (none, s.h) ∨
      ∃ ptr h' bs', Slab.kmalloc s.h size flags = (some ptr, h') ∧ Inv ⟨h', ⟨ptr, req⟩ :: s.live⟩ bs' ∧
        (Counts s.h bs → Counts h' bs') := by
  rcases kmalloc_cases s.h size flags with ⟨-, h⟩ | ⟨off, -, hfit, h⟩ | ⟨-, ⟨-, h⟩ | ⟨ptr, h', hb, h⟩⟩
  · exact .inl h
  · obtain ⟨q, b, hq, rfl, hfree, hlen⟩ := firstFit_some hi.walk hfit
    rw [Nat.zero_add] at h
    obtain ⟨bs', hinv, hcount⟩ := hi.take hq hfree hlen flags ⟨q + slabHdrSz, req⟩ rfl hreq
    exact .inr ⟨_, _, bs', h, hinv, hcount⟩
  · exact .inl h
  · obtain ⟨hinv, rfl⟩ := hi.bump hb hn ⟨ptr, req⟩ rfl hreq
    have hat : BlockAt (bs ++ [⟨alignUp size 16, slabMagicAlloc⟩]) s.h.heapBump ⟨alignUp size 16, slabMagicAlloc⟩ :=
      ⟨bs, [], rfl, hi.span_eq.symm⟩
    refine .inr ⟨_, _, _, h, hinv.zeroPayload hat (Nat.le_refl _) flags, fun hc => Counts.zeroPayload ?_ _ _ _⟩
    exact hc.bump hb

/-- **A request of at most the heap** gets a block as long as it asked for, or nothing. -/
theorem Inv.kmalloc {s : State} {bs : List SlabHdr} (hi : Inv s bs) {size : Nat} (hsize : size ≤ heapSize)
    (flags : Nat) :
    Slab.kmalloc s.h size flags = (none, s.h) ∨
      ∃ ptr h' bs', Slab.kmalloc s.h size flags = (some ptr, h') ∧ Inv ⟨h', ⟨ptr, size⟩ :: s.live⟩ bs' ∧
        (Counts s.h bs → Counts h' bs') := by
  have hw : heapSize + 15 < word64 := by decide
  have hmax : heapSize + 16 < word64 - heapSize - slabHdrSz := by decide
  obtain ⟨hle, hlt⟩ := alignUp_bounds (x := size) (show 0 < 16 by decide) (by omega)
  exact hi.kmalloc_block (by omega) hle flags

/-! ## `kfree` -/

/-- **What `kfree` of an allocated block does**: the block turns free, and takes in a free right neighbour. -/
theorem kfree_alloc {h : Heap} {off : Nat} {b : SlabHdr} (hb : hdrAt h.heap off = b)
    (halloc : b.magic = slabMagicAlloc) :
    kfree h (some (off + slabHdrSz)) =
      if off + slabHdrSz + b.size + slabHdrSz ≤ h.heapBump ∧
          (hdrAt (setMagic h.heap off slabMagicFree) (off + slabHdrSz + b.size)).magic = slabMagicFree then
        { h with
          heap := setSize (setMagic h.heap off slabMagicFree) off (b.size + slabHdrSz +
            (hdrAt (setMagic h.heap off slabMagicFree) (off + slabHdrSz + b.size)).size)
          heapUsed := sub64 h.heapUsed b.size
          heapFreed := sub64 (add64 h.heapFreed b.size) slabHdrSz }
      else
        { h with
          heap := setMagic h.heap off slabMagicFree
          heapUsed := sub64 h.heapUsed b.size
          heapFreed := add64 h.heapFreed b.size } := by
  have hpos : off + slabHdrSz - slabHdrSz = off := by omega
  simp only [kfree, hpos, hb, halloc, alloc_ne_free, if_false, ne_eq, not_true_eq_false]

section Free

variable {s : State} {bs : List SlabHdr} {p : Nat} {b : SlabHdr} {live' : List Client}

theorem Inv.sub_used (hi : Inv s bs) (hb : BlockAt bs p b) (halloc : b.magic = slabMagicAlloc) :
    sub64 s.h.heapUsed b.size + b.size = s.h.heapUsed := by
  have hmem := allocBytes_le_of_mem hb.mem halloc
  have hused := hi.alloc_le
  have husedeq := hi.used
  have hw : heapSize < word64 := by decide
  rw [sub64_of_le (by omega) (by omega)]
  omega

theorem Inv.hdrAt_mark (hi : Inv s bs) (hb : BlockAt bs p b) :
    hdrAt (setMagic s.h.heap p slabMagicFree) p = ⟨b.size, slabMagicFree⟩ := by
  rw [hdrAt_setMagic, hb.read hi.walk]
  rfl

/-- **A block freed alone.** -/
theorem Inv.free_alone (hi : Inv s bs) (hb : BlockAt bs p b) (halloc : b.magic = slabMagicAlloc)
    (hsub : live'.Sublist s.live) (hne : ∀ c ∈ live', c.ptr ≠ p + slabHdrSz) (freed : Nat) :
    ∃ bs', Inv ⟨{ s.h with
      heap := setMagic s.h.heap p slabMagicFree
      heapUsed := sub64 s.h.heapUsed b.size
      heapFreed := freed }, live'⟩ bs' ∧
      Replaced SlabHdr.size slabHdrSz bs p [b] [⟨b.size, slabMagicFree⟩] bs' := by
  have hused := hi.sub_used hb halloc
  have hone : allocBytes [b] = b.size := by simp [allocBytes, halloc]
  have hnone : allocBytes [⟨b.size, slabMagicFree⟩] = 0 := by simp [allocBytes, alloc_ne_free.symm]
  refine hi.edit hb.segAt rfl _ rfl rfl ?_ (tiles_singleton (hi.hdrAt_mark hb)) ?_ ?_
    (hi.nodup.sublist (hsub.map _)) ?_
  · intro x hx
    simp only [span_cons, span_nil] at hx
    exact hdrAt_setMagic_of_apart _ _ (by unfold slabHdrSz at *; omega)
  · intro d hd
    rw [List.mem_singleton.1 hd]
    exact .inr rfl
  · rw [hone, hnone]
    exact hused
  · intro c hc
    exact .inr ⟨hsub.subset hc, hi.live_apart_of_ne hb (hsub.subset hc) (hne c hc)⟩

/-- What is freed alone is counted. -/
theorem Counts.free_alone {bs' : List SlabHdr} {h' : Heap} (hc : Counts s.h bs) (hi : Inv s bs) (hb : BlockAt bs p b)
    (halloc : b.magic = slabMagicAlloc) (hr : Replaced SlabHdr.size slabHdrSz bs p [b] [⟨b.size, slabMagicFree⟩] bs')
    (hfreed : h'.heapFreed = add64 s.h.heapFreed b.size) : Counts h' bs' := by
  have hlt := hc.lt hi
  have hle := hb.le_span
  have hspan := hi.span_eq
  have hbump := hi.bump_le
  have hone : freeBytes [⟨b.size, slabMagicFree⟩] = b.size := freeBytes_free rfl
  rw [add64_of_lt (by omega)] at hfreed
  refine hc.replaced hr (Nat.le_refl _) ?_ ?_
  · rw [hone, freeBytes_alloc halloc, hfreed]
    omega
  · rw [hone, freeBytes_alloc halloc, hfreed]
    omega

/-- **A block freed together with the free block to its right.** -/
theorem Inv.free_merge {d : SlabHdr} (hi : Inv s bs) (hb : BlockAt bs p b) (halloc : b.magic = slabMagicAlloc)
    (hseg : SegAt SlabHdr.size slabHdrSz bs p [b, d]) (hd : BlockAt bs (p + (slabHdrSz + b.size)) d)
    (hfree : d.magic = slabMagicFree) (hsub : live'.Sublist s.live) (hne : ∀ c ∈ live', c.ptr ≠ p + slabHdrSz)
    (freed : Nat) :
    ∃ bs', Inv ⟨{ s.h with
      heap := setSize (setMagic s.h.heap p slabMagicFree) p (b.size + slabHdrSz + d.size)
      heapUsed := sub64 s.h.heapUsed b.size
      heapFreed := freed }, live'⟩ bs' := by
  have hused := hi.sub_used hb halloc
  have hspan := hi.span_eq
  have hbump := hi.bump_le
  have hdle := hd.le_span
  have hmax : heapSize < 4294967296 := by decide
  have hone : allocBytes [b, d] = b.size := by simp [allocBytes, halloc, hfree, alloc_ne_free.symm]
  have hnone : allocBytes [⟨b.size + slabHdrSz + d.size, slabMagicFree⟩] = 0 := by
    simp [allocBytes, alloc_ne_free.symm]
  have hlen : span SlabHdr.size slabHdrSz [⟨b.size + slabHdrSz + d.size, slabMagicFree⟩] =
      span SlabHdr.size slabHdrSz [b, d] := by
    simp only [span_cons, span_nil]
    omega
  obtain ⟨bs', h, -⟩ : ∃ bs', Inv ⟨{ s.h with
      heap := setSize (setMagic s.h.heap p slabMagicFree) p (b.size + slabHdrSz + d.size)
      heapUsed := sub64 s.h.heapUsed b.size
      heapFreed := freed }, live'⟩ bs' ∧
      Replaced SlabHdr.size slabHdrSz bs p [b, d] [⟨b.size + slabHdrSz + d.size, slabMagicFree⟩] bs' := by
    refine hi.edit hseg rfl _ hlen rfl ?_ (hlen ▸ tiles_singleton ?_) ?_ ?_ (hi.nodup.sublist (hsub.map _)) ?_
    · intro x hx
      simp only [span_cons, span_nil] at hx
      have hp : p + slabHdrSz ≤ x ∨ x + slabHdrSz ≤ p := by
        unfold slabHdrSz at *
        omega
      show hdrAt (setSize (setMagic s.h.heap p slabMagicFree) p _) x = _
      rw [hdrAt_setSize_of_apart _ _ hp, hdrAt_setMagic_of_apart _ _ hp]
    · show hdrAt (setSize (setMagic s.h.heap p slabMagicFree) p _) p = _
      rw [hdrAt_setSize, hi.hdrAt_mark hb]
      simp only [SlabHdr.mk.injEq, and_true]
      exact Nat.mod_eq_of_lt (by omega)
    · intro e he
      rw [List.mem_singleton.1 he]
      exact .inr rfl
    · rw [hone, hnone]
      exact hused
    · intro c hc
      have h1 := hi.live_apart_of_ne hb (hsub.subset hc) (hne c hc)
      have h2 := hi.live_apart hd hfree (hsub.subset hc)
      refine .inr ⟨hsub.subset hc, ?_⟩
      simp only [span_cons, span_nil]
      unfold slabHdrSz at *
      omega
  exact ⟨bs', h⟩

end Free

/-- The block before `ptr` is followed by a free one, which `kfree` takes in. -/
def Merges (h : Heap) (ptr : Nat) : Prop :=
  ptr + (hdrAt h.heap (ptr - slabHdrSz)).size + slabHdrSz ≤ h.heapBump ∧
    (hdrAt h.heap (ptr + (hdrAt h.heap (ptr - slabHdrSz)).size)).magic = slabMagicFree

/-- **`kfree` of a live pointer keeps the block list**, and the counter right when it does not merge. -/
theorem Inv.kfree {s : State} {bs : List SlabHdr} (hi : Inv s bs) {c : Client} (hc : c ∈ s.live) :
    ∃ bs', Inv ⟨Slab.kfree s.h (some c.ptr), s.live.filter (fun d => d.ptr ≠ c.ptr)⟩ bs' ∧
      (¬Merges s.h c.ptr → Counts s.h bs → Counts (Slab.kfree s.h (some c.ptr)) bs') := by
  obtain ⟨p, b, hb, hptr, halloc, -⟩ := hi.holds c hc
  have hread := hb.read hi.walk
  have hspan := hi.span_eq
  have hsub : (s.live.filter (fun d => d.ptr ≠ c.ptr)).Sublist s.live := List.filter_sublist
  have hne : ∀ d ∈ s.live.filter (fun d => d.ptr ≠ c.ptr), d.ptr ≠ p + slabHdrSz := by
    intro d hd
    rw [← hptr]
    simpa using (List.mem_filter.1 hd).2
  revert hsub hne
  generalize s.live.filter (fun d => d.ptr ≠ c.ptr) = live'
  intro hsub hne
  rw [hptr, kfree_alloc hread halloc]
  by_cases hnext : p + slabHdrSz + b.size + slabHdrSz ≤ s.h.heapBump ∧
      (hdrAt (setMagic s.h.heap p slabMagicFree) (p + slabHdrSz + b.size)).magic = slabMagicFree
  · rw [if_pos hnext]
    obtain ⟨hin, hfree⟩ := hnext
    obtain ⟨d, hseg, hd⟩ := hb.segAt_next (by unfold slabHdrSz at *; omega)
    have hdread : hdrAt (setMagic s.h.heap p slabMagicFree) (p + slabHdrSz + b.size) = d := by
      rw [hdrAt_setMagic_of_apart _ _ (.inl (by omega)), Nat.add_assoc]
      exact hd.read hi.walk
    have hmerge : Merges s.h (p + slabHdrSz) := by
      unfold Merges
      rw [Nat.add_sub_cancel, hread, Nat.add_assoc p, hd.read hi.walk, ← Nat.add_assoc p, ← hdread]
      exact ⟨hin, hfree⟩
    rw [hdread] at hfree ⊢
    obtain ⟨bs', hinv⟩ := hi.free_merge hb halloc hseg hd hfree hsub hne _
    exact ⟨bs', hinv, fun hno => absurd hmerge hno⟩
  · rw [if_neg hnext]
    obtain ⟨bs', hinv, hr⟩ := hi.free_alone hb halloc hsub hne _
    exact ⟨bs', hinv, fun _ hcount => hcount.free_alone hi hb halloc hr rfl⟩

end Slab
end Pico
