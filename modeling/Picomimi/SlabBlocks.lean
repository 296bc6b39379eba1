import Picomimi.Lib.Tiling
import Picomimi.SlabHeap
/-!
# SlabBlocks — the heap as a list of blocks

`Inv s bs` ties the bytes to the list `bs` of headers the walk meets, and the clients' pointers to its allocated blocks.
Every path of `kmalloc` and `kfree` replaces one segment of `bs` by another of the same span (`Inv.edit`) or appends
one block: reuse, split, bump, free, free with forward coalescing.
-/
namespace Pico
namespace Slab

open Lib Lib.Tiling

/-- A pointer a client holds, and the size it asked for. -/
structure Client where
  ptr : Nat
  req : Nat

structure State where
  h : Heap
  live : List Client

abbrev BlockAt (bs : List SlabHdr) (p : Nat) (b : SlabHdr) : Prop := AtPos SlabHdr.size slabHdrSz bs p b
abbrev Walk (m : Mem) (off : Nat) (bs : List SlabHdr) (fin : Nat) : Prop :=
  Tiles SlabHdr.size slabHdrSz (hdrAt m) off bs fin

/-- The payload bytes of the allocated blocks. -/
def allocBytes : List SlabHdr → Nat
  | [] => 0
  | b :: bs => (if b.magic = slabMagicAlloc then b.size else 0) + allocBytes bs

/-- The payload bytes of the free blocks. -/
def freeBytes : List SlabHdr → Nat
  | [] => 0
  | b :: bs => (if b.magic = slabMagicFree then b.size else 0) + freeBytes bs

/-- **`heap_freed` is at least what the free blocks hold**, and no more than the heap for each block above it. -/
structure Counts (h : Heap) (bs : List SlabHdr) : Prop where
  le : freeBytes bs ≤ h.heapFreed
  above : h.heapFreed ≤ freeBytes bs + bs.length * (heapSize + slabHdrSz)

def Tagged (b : SlabHdr) : Prop := b.magic = slabMagicAlloc ∨ b.magic = slabMagicFree

/-- `c` holds the payload of an allocated block of `bs` at least as long as it asked for. -/
def Holds (bs : List SlabHdr) (c : Client) : Prop :=
  ∃ p b, BlockAt bs p b ∧ c.ptr = p + slabHdrSz ∧ b.magic = slabMagicAlloc ∧ c.req ≤ b.size

structure Inv (s : State) (bs : List SlabHdr) : Prop where
  walk : Walk s.h.heap 0 bs s.h.heapBump
  bump_le : s.h.heapBump ≤ heapSize
  tagged : ∀ b ∈ bs, Tagged b
  used : s.h.heapUsed = allocBytes bs
  nodup : (s.live.map Client.ptr).Nodup
  holds : ∀ c ∈ s.live, Holds bs c

theorem alloc_ne_free : slabMagicAlloc ≠ slabMagicFree := by decide

@[simp] theorem allocBytes_append : ∀ (xs ys : List SlabHdr), allocBytes (xs ++ ys) = allocBytes xs + allocBytes ys
  | [], ys => by simp [allocBytes]
  | x :: xs, ys => by
    simp only [List.cons_append, allocBytes, allocBytes_append xs ys]
    omega

theorem allocBytes_le_span : ∀ (bs : List SlabHdr), allocBytes bs ≤ span SlabHdr.size slabHdrSz bs
  | [] => Nat.le_refl _
  | b :: bs => by
    have ih := allocBytes_le_span bs
    simp only [allocBytes, span_cons] at ih ⊢
    split <;> omega

@[simp] theorem freeBytes_append : ∀ (xs ys : List SlabHdr), freeBytes (xs ++ ys) = freeBytes xs + freeBytes ys
  | [], ys => by simp [freeBytes]
  | x :: xs, ys => by
    simp only [List.cons_append, freeBytes, freeBytes_append xs ys]
    omega

theorem freeBytes_free {b : SlabHdr} (h : b.magic = slabMagicFree) : freeBytes [b] = b.size := by simp [freeBytes, h]

theorem freeBytes_alloc {b : SlabHdr} (h : b.magic = slabMagicAlloc) : freeBytes [b] = 0 := by
  simp [freeBytes, h, alloc_ne_free]

theorem le_freeBytes {bs : List SlabHdr} {b : SlabHdr} (hb : b ∈ bs) (h : b.magic = slabMagicFree) :
    b.size ≤ freeBytes bs := by
  obtain ⟨pre, post, rfl⟩ := List.append_of_mem hb
  have hsplit : freeBytes (pre ++ ([b] ++ post)) = freeBytes pre + (b.size + freeBytes post) := by
    rw [freeBytes_append, freeBytes_append, freeBytes_free h]
  have hle := Nat.le_add_right b.size (freeBytes post)
  exact Nat.le_trans hle (Nat.le_trans (Nat.le_add_left _ _) (Nat.le_of_eq hsplit.symm))

/-- Free bytes and headers are inside the heap. -/
theorem freeBytes_le_span : ∀ (bs : List SlabHdr),
    freeBytes bs + bs.length * slabHdrSz ≤ span SlabHdr.size slabHdrSz bs
  | [] => Nat.le_refl _
  | b :: bs => by
    have ih := freeBytes_le_span bs
    simp only [freeBytes, span_cons, List.length_cons, Nat.succ_mul]
    split <;> omega

theorem Inv.span_eq {s : State} {bs : List SlabHdr} (hi : Inv s bs) :
    span SlabHdr.size slabHdrSz bs = s.h.heapBump := by
  have := hi.walk.fin_eq
  omega

theorem Inv.alloc_le {s : State} {bs : List SlabHdr} (hi : Inv s bs) : s.h.heapUsed ≤ heapSize := by
  have h1 := allocBytes_le_span bs
  have h2 := hi.span_eq
  have h3 := hi.bump_le
  have h4 := hi.used
  omega

/-- **Replacing a segment keeps the invariant**: the new headers walk the new segment, and every client holds a block
of the new segment or one it held outside the old. -/
theorem Inv.edit {s s' : State} {bs mid : List SlabHdr} {p len : Nat} (hi : Inv s bs)
    (hseg : SegAt SlabHdr.size slabHdrSz bs p mid) (hlen : span SlabHdr.size slabHdrSz mid = len)
    (mid' : List SlabHdr) (hspan : span SlabHdr.size slabHdrSz mid' = len) (hbump : s'.h.heapBump = s.h.heapBump)
    (hout : ∀ x, x + slabHdrSz ≤ p ∨ p + len ≤ x → hdrAt s'.h.heap x = hdrAt s.h.heap x)
    (hmid : Walk s'.h.heap p mid' (p + len)) (htag : ∀ b ∈ mid', Tagged b)
    (hused : s'.h.heapUsed + allocBytes mid = s.h.heapUsed + allocBytes mid')
    (hnodup : (s'.live.map Client.ptr).Nodup)
    (hlive : ∀ c ∈ s'.live,
      (∃ q b, BlockAt mid' q b ∧ c.ptr = p + q + slabHdrSz ∧ b.magic = slabMagicAlloc ∧ c.req ≤ b.size) ∨
      (c ∈ s.live ∧ (c.ptr < p + slabHdrSz ∨ p + len + slabHdrSz ≤ c.ptr))) :
    ∃ bs', Inv s' bs' ∧ Replaced SlabHdr.size slabHdrSz bs p mid mid' bs' := by
  obtain ⟨pre, post, rfl, rfl⟩ := hseg
  refine ⟨pre ++ mid' ++ post, ?_, ⟨pre, post, rfl, rfl, rfl⟩⟩
  constructor
  · rw [hbump]
    refine tiles_replace hi.walk (hspan.trans hlen.symm) (fun x _ hx => hout x (.inl (by omega))) ?_
      (fun x hx => hout x (.inr (by omega)))
    rw [Nat.zero_add, hlen]
    exact hmid
  · exact hbump ▸ hi.bump_le
  · intro b hb
    simp only [List.mem_append] at hb
    rcases hb with (hb | hb) | hb
    · exact hi.tagged b (by simp [hb])
    · exact htag b hb
    · exact hi.tagged b (by simp [hb])
  · have h := hi.used
    simp only [allocBytes_append] at h ⊢
    omega
  · exact hnodup
  · intro c hc
    rcases hlive c hc with ⟨q, b, hb, hptr, hm, hr⟩ | ⟨hc', hp⟩
    · exact ⟨_, b, SegAt.atPos ⟨pre, post, rfl, rfl⟩ hb, hptr, hm, hr⟩
    · obtain ⟨q, b, hb, hptr, hm, hr⟩ := hi.holds c hc'
      exact ⟨q, b, hb.replace (by decide) (hspan.trans hlen.symm) (by omega), hptr, hm, hr⟩

/-! ## The counter -/

/-- The counter does not wrap. -/
theorem Counts.lt {s : State} {bs : List SlabHdr} (hc : Counts s.h bs) (hi : Inv s bs) :
    s.h.heapFreed + heapSize < word64 := by
  have habove := hc.above
  have hle := freeBytes_le_span bs
  have hspan := hi.span_eq
  have hbump := hi.bump_le
  unfold heapSize slabHdrSz at *
  unfold word64
  omega

/-- **A replaced segment**: the counter moves as the free bytes do, with room for one more block. -/
theorem Counts.replaced {h h' : Heap} {bs mid mid' bs' : List SlabHdr} {p : Nat} (hc : Counts h bs)
    (hr : Replaced SlabHdr.size slabHdrSz bs p mid mid' bs') (hlen : mid.length ≤ mid'.length)
    (hle : h.heapFreed + freeBytes mid' ≤ h'.heapFreed + freeBytes mid)
    (habove : h'.heapFreed + freeBytes mid ≤
      h.heapFreed + freeBytes mid' + (mid'.length - mid.length) * (heapSize + slabHdrSz)) : Counts h' bs' := by
  obtain ⟨pre, post, rfl, rfl, -⟩ := hr
  obtain ⟨h1, h2⟩ := hc
  simp only [freeBytes_append, List.length_append] at h1 h2 ⊢
  obtain ⟨k, hk⟩ := Nat.exists_eq_add_of_le hlen
  rw [hk, Nat.add_sub_cancel_left] at habove
  constructor
  · simp only [freeBytes_append]
    omega
  · simp only [freeBytes_append, List.length_append, hk]
    have hdist : (pre.length + (mid.length + k) + post.length) * (heapSize + slabHdrSz) =
        (pre.length + mid.length + post.length) * (heapSize + slabHdrSz) + k * (heapSize + slabHdrSz) := by
      rw [← Nat.add_mul]
      congr 1
      omega
    omega

/-! ## The search -/

/-- **What the search finds is a free block of the walk that is long enough.** -/
theorem firstFit_some {m : Mem} {bump size : Nat} : ∀ {fuel off : Nat} {bs : List SlabHdr} {p : Nat},
    Walk m off bs bump → firstFit m bump size fuel off = some p →
      ∃ q b, BlockAt bs q b ∧ p = off + q ∧ b.magic = slabMagicFree ∧ size ≤ b.size
  | 0, _, _, _, _, h => by cases h
  | fuel + 1, off, bs, p, ht, h => by
    unfold firstFit at h
    by_cases hoff : off + slabHdrSz ≤ bump
    · rw [if_pos hoff] at h
      cases bs with
      | nil =>
        have : off = bump := ht
        unfold slabHdrSz at hoff
        omega
      | cons b bs =>
        obtain ⟨hb, ht'⟩ := ht
        simp only [hb] at h
        by_cases hfit : b.magic = slabMagicFree ∧ size ≤ b.size
        · rw [if_pos hfit] at h
          cases h
          exact ⟨0, b, ⟨[], bs, rfl, rfl⟩, rfl, hfit.1, hfit.2⟩
        · rw [if_neg hfit] at h
          obtain ⟨q, c, hq, rfl, hc⟩ := firstFit_some ht' h
          exact ⟨slabHdrSz + b.size + q, c, AtPos.cons_iff.2 (.inr ⟨q, hq, rfl⟩), by omega, hc⟩
    · rw [if_neg hoff] at h
      cases h

/-- **The search gives up only when no block fits**: the turns it is given are enough. -/
theorem firstFit_none {m : Mem} {bump size : Nat} : ∀ {fuel off : Nat} {bs : List SlabHdr},
    Walk m off bs bump → bump < off + fuel → firstFit m bump size fuel off = none →
      ∀ b ∈ bs, b.magic = slabMagicFree → b.size < size
  | _, _, [], _, _, _, b, hb, _ => by cases hb
  | 0, off, b :: bs, ht, hfuel, _, _, _, _ => by
    have := Tiles.fin_eq ht
    omega
  | fuel + 1, off, b :: bs, ht, hfuel, h, c, hc, hfree => by
    have hfin := Tiles.fin_eq ht
    simp only [span_cons] at hfin
    obtain ⟨hb, ht'⟩ := ht
    unfold firstFit at h
    rw [if_pos (by omega)] at h
    simp only [hb] at h
    by_cases hfit : b.magic = slabMagicFree ∧ size ≤ b.size
    · rw [if_pos hfit] at h
      cases h
    · rw [if_neg hfit] at h
      rcases List.mem_cons.1 hc with rfl | hc
      · by_cases hlt : c.size < size
        · exact hlt
        · exact absurd ⟨hfree, by omega⟩ hfit
      · exact firstFit_none ht' (by unfold slabHdrSz; omega) h c hc hfree

end Slab
end Pico
