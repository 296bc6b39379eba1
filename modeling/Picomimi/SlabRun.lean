import Picomimi.Lib.Run
import Picomimi.SlabStep
/-!
# SlabRun — the heap over whole runs

Clients allocate, free what they hold and write inside their payloads, in any order.  `HeapWf` says what the bytes and the
held pointers look like after it; `Inv` (`SlabBlocks`) is the invariant that carries it.
-/
namespace Pico
namespace Slab

open Lib Lib.Tiling

/-- The payload length the header before `ptr` records. -/
def payloadLen (h : Heap) (ptr : Nat) : Nat := (hdrAt h.heap (ptr - slabHdrSz)).size

/-- What the clients of the heap do. -/
inductive Op where
  | kmalloc (size flags : Nat)
  | kfree (ptr : Nat)
  | write (ptr i : Nat) (v : UInt8)

/-- One step.  A client asks for at most the whole heap, frees a pointer it holds, and writes inside its payload. -/
def step (s : State) : Op → Option State
  | .kmalloc size flags =>
    if size ≤ heapSize then
      match kmalloc s.h size flags with
      | (none, h) => some { s with h := h }
      | (some ptr, h) => some ⟨h, ⟨ptr, size⟩ :: s.live⟩
    else none
  | .kfree ptr =>
    if s.live.any (fun c => c.ptr = ptr) then
      some ⟨kfree s.h (some ptr), s.live.filter (fun c => c.ptr ≠ ptr)⟩
    else none
  | .write ptr i v =>
    if s.live.any (fun c => c.ptr = ptr) ∧ i < payloadLen s.h ptr then
      some { s with h := { s.h with heap := s.h.heap.write8 (ptr + i) v } }
    else none

/-- The heap from `slab_init` on, with no pointer handed out yet. -/
def machine : Machine State Op where
  init s := (∃ h, s.h = slabInit h) ∧ s.live = []
  step := step

/-- **A live payload**: as long as asked, inside the carved region, apart from every header. -/
structure PayloadWf (h : Heap) (bs : List SlabHdr) (c : Client) : Prop where
  long : c.req ≤ payloadLen h c.ptr
  below : c.ptr + payloadLen h c.ptr ≤ h.heapBump
  apart : ∀ p b, BlockAt bs p b → p + slabHdrSz ≤ c.ptr ∨ c.ptr + payloadLen h c.ptr ≤ p

/-- **What the heap looks like**: the headers, and the pointers the clients hold. -/
structure HeapWf (s : State) (bs : List SlabHdr) : Prop where
  walk : Walk s.h.heap 0 bs s.h.heapBump
  bump_le : s.h.heapBump ≤ heapSize
  tagged : ∀ b ∈ bs, Tagged b
  payload : ∀ c ∈ s.live, PayloadWf s.h bs c
  disjoint : s.live.Pairwise fun c d =>
    c.ptr + payloadLen s.h c.ptr ≤ d.ptr ∨ d.ptr + payloadLen s.h d.ptr ≤ c.ptr
  used : s.h.heapUsed = allocBytes bs

theorem Inv.init {s : State} (h : machine.init s) : Inv s [] := by
  obtain ⟨⟨h0, hh⟩, hlive⟩ := h
  constructor
  · rw [hh]
    rfl
  · rw [hh]
    exact Nat.zero_le _
  · intro b hb
    cases hb
  · rw [hh]
    rfl
  · rw [hlive]
    exact List.nodup_nil
  · intro c hc
    rw [hlive] at hc
    cases hc

theorem exists_client {live : List Client} {ptr : Nat} (h : live.any (fun c => c.ptr = ptr) = true) :
    ∃ c ∈ live, c.ptr = ptr := by
  obtain ⟨c, hc, hp⟩ := List.any_eq_true.1 h
  exact ⟨c, hc, of_decide_eq_true hp⟩

theorem Inv.payloadLen_eq {s : State} {bs : List SlabHdr} (hi : Inv s bs) {c : Client} {p : Nat} {b : SlabHdr}
    (hb : BlockAt bs p b) (hptr : c.ptr = p + slabHdrSz) : payloadLen s.h c.ptr = b.size := by
  unfold Slab.payloadLen
  rw [hptr, Nat.add_sub_cancel, hb.read hi.walk]

theorem Inv.write_client {s : State} {bs : List SlabHdr} (hi : Inv s bs) {c : Client} (hc : c ∈ s.live) {i : Nat}
    (hlt : i < payloadLen s.h c.ptr) (v : UInt8) :
    Inv { s with h := { s.h with heap := s.h.heap.write8 (c.ptr + i) v } } bs := by
  obtain ⟨p, b, hb, hptr, -⟩ := hi.holds c hc
  rw [Inv.payloadLen_eq hi hb hptr] at hlt
  refine hi.write hb (fun x hx => ?_)
  rw [hptr]
  exact hdrAt_write8_of_apart _ _ (by unfold slabHdrSz at *; omega)

/-- **Every step keeps a block list.** -/
theorem step_inv {s s' : State} {op : Op} (hi : ∃ bs, Inv s bs) (h : step s op = some s') : ∃ bs, Inv s' bs := by
  obtain ⟨bs, hi⟩ := hi
  cases op with
  | kmalloc size flags =>
    simp only [step] at h
    by_cases hsize : size ≤ heapSize
    · rw [if_pos hsize] at h
      rcases hi.kmalloc hsize flags with hk | ⟨ptr, h', bs', hk, hi', -⟩
      · rw [hk] at h
        cases h
        exact ⟨bs, hi⟩
      · rw [hk] at h
        cases h
        exact ⟨bs', hi'⟩
    · rw [if_neg hsize] at h
      cases h
  | kfree ptr =>
    simp only [step] at h
    by_cases hlive : s.live.any (fun c => c.ptr = ptr) = true
    · rw [if_pos hlive] at h
      cases h
      obtain ⟨c, hc, rfl⟩ := exists_client hlive
      obtain ⟨bs', hi', -⟩ := hi.kfree hc
      exact ⟨bs', hi'⟩
    · rw [if_neg hlive] at h
      cases h
  | write ptr i v =>
    simp only [step] at h
    by_cases hw : s.live.any (fun c => c.ptr = ptr) = true ∧ i < payloadLen s.h ptr
    · rw [if_pos hw] at h
      cases h
      obtain ⟨hlive, hlt⟩ := hw
      obtain ⟨c, hc, rfl⟩ := exists_client hlive
      exact ⟨bs, hi.write_client hc hlt v⟩
    · rw [if_neg hw] at h
      cases h

theorem Inv.payloadWf {s : State} {bs : List SlabHdr} (hi : Inv s bs) {c : Client} (hc : c ∈ s.live) :
    PayloadWf s.h bs c := by
  obtain ⟨p, b, hb, hptr, -, hreq⟩ := hi.holds c hc
  have hlen := Inv.payloadLen_eq hi hb hptr
  have hle := hb.le_span
  have hspan := hi.span_eq
  constructor
  · rw [hlen]
    exact hreq
  · rw [hlen]
    omega
  · intro q d hd
    rw [hlen]
    rcases hd.apart hb with ⟨rfl, -⟩ | h | h
    · exact .inl (by omega)
    · exact .inl (by omega)
    · exact .inr (by omega)

theorem Inv.disjoint {s : State} {bs : List SlabHdr} (hi : Inv s bs) :
    s.live.Pairwise fun c d =>
      c.ptr + payloadLen s.h c.ptr ≤ d.ptr ∨ d.ptr + payloadLen s.h d.ptr ≤ c.ptr := by
  have hne : s.live.Pairwise fun c d => c.ptr ≠ d.ptr := List.pairwise_map.1 hi.nodup
  refine hne.imp_of_mem (fun {c d} hc hd hcd => ?_)
  obtain ⟨p, b, hb, hbp, -⟩ := hi.holds c hc
  obtain ⟨q, e, he, heq, -⟩ := hi.holds d hd
  rw [Inv.payloadLen_eq hi hb hbp, Inv.payloadLen_eq hi he heq]
  rcases hb.apart he with ⟨rfl, -⟩ | h | h
  · exact absurd (hbp.trans heq.symm) hcd
  · exact .inl (by omega)
  · exact .inr (by omega)

theorem Inv.heapWf {s : State} {bs : List SlabHdr} (hi : Inv s bs) : HeapWf s bs :=
  ⟨hi.walk, hi.bump_le, hi.tagged, fun _ hc => hi.payloadWf hc, hi.disjoint, hi.used⟩

/-- **The heap is well formed after every run** of allocations, frees and writes. -/
theorem heap_wf_of_run (l : List Op) (s s' : State) (h0 : machine.init s) (h : machine.run s l = some s') :
    ∃ bs, HeapWf s' bs := by
  obtain ⟨bs, hi⟩ := machine.run_invariant (P := fun s => ∃ bs, Inv s bs) (fun s a s' hP hs => step_inv hP hs) l s s'
    ⟨[], Inv.init h0⟩ h
  exact ⟨bs, hi.heapWf⟩

/-- A run that splits a freed block, writes over the payload and coalesces on the second free. -/
theorem heap_wf_of_run_split :
    let s : State := ⟨slabInit ⟨fun _ => 0, 5, 5, 5⟩, []⟩
    let l : List Op := [.kmalloc 100 0, .kmalloc 40 gfpZero, .kfree 8, .kmalloc 8 0, .write 8 15 0xFF, .kfree 8]
    ∃ s', machine.run s l = some s' ∧ ∃ bs, HeapWf s' bs := by
  intro s l
  have hrun : (machine.run s l).isSome = true := by decide +kernel
  obtain ⟨s', h⟩ := Option.isSome_iff_exists.1 hrun
  exact ⟨s', h, heap_wf_of_run l s s' ⟨⟨_, rfl⟩, rfl⟩ h⟩

end Slab
end Pico
