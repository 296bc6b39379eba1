import Picomimi.Lib.Ring
import Picomimi.Lib.Run
import Picomimi.Lib.Word
/-!
# SockRing — the socket ring buffer of `net/net_core.c`

`head` is the oldest byte, `tail` the first free cell, and every sum is a `u32` sum.  Up to a size of 2 GB no sum wraps and
the ring is a bounded queue: a write appends what fits, a read takes from the front, a peek only looks.
-/
namespace Pico
namespace Net

open Lib

structure SockRingbuf where
  buf : Nat → UInt8
  size : Nat
  head : Nat
  tail : Nat
  len : Nat

/-- `sock_ringbuf_init` on a zeroed socket; without memory the size stays 0. -/
def sockRingbufInit (buf : Option (Nat → UInt8)) (size : Nat) : SockRingbuf :=
  match buf with
  | none => ⟨fun _ => 0, 0, 0, 0, 0⟩
  | some buf => ⟨buf, size, 0, 0, 0⟩

/-- The store loop of `sock_ringbuf_write`. -/
def rbStore (rb : SockRingbuf) : List UInt8 → SockRingbuf
  | [] => rb
  | b :: data => rbStore { rb with buf := Function.update rb.buf rb.tail b, tail := add32 rb.tail 1 % rb.size } data

/-- `sock_ringbuf_write`, and the length it returns. -/
def sockRingbufWrite (rb : SockRingbuf) (data : List UInt8) : SockRingbuf × Nat :=
  let space := sub32 rb.size rb.len
  let len := if space < data.length then space else data.length
  let rb' := rbStore rb (data.take len)
  ({ rb' with len := add32 rb'.len len }, len)

/-- `sock_ringbuf_read`, and the bytes it copied out. -/
def sockRingbufRead (rb : SockRingbuf) (len : Nat) (peek : Bool) : SockRingbuf × List UInt8 :=
  if rb.len = 0 then (rb, [])
  else
    let len := if rb.len < len then rb.len else len
    let data := (List.range len).map fun i => rb.buf (add32 rb.head i % rb.size)
    (if peek then rb else { rb with head := add32 rb.head len % rb.size, len := sub32 rb.len len }, data)

/-- The bytes in the ring, oldest first. -/
def SockRingbuf.bytes (rb : SockRingbuf) : List UInt8 := Ring.content rb.buf rb.size rb.head rb.len

/-- **A ring whose sums do not wrap**: of at most 2 GB, or the empty ring of a socket that got no memory. -/
structure SockRingbuf.Wf (rb : SockRingbuf) : Prop where
  small : rb.size ≤ 2147483648
  ring : (rb.size = 0 ∧ rb.len = 0) ∨ Ring.Wf rb.size rb.head rb.tail rb.len

@[simp] theorem SockRingbuf.length_bytes (rb : SockRingbuf) : rb.bytes.length = rb.len := Ring.length_content

theorem SockRingbuf.Wf.len_le {rb : SockRingbuf} (h : rb.Wf) : rb.len ≤ rb.size := by
  rcases h.ring with ⟨hs, hl⟩ | hr
  · omega
  · exact hr.len_le

/-- **The store loop appends**, seen from a length that counts what it has stored. -/
theorem rbStore_spec : ∀ (data : List UInt8) (rb : SockRingbuf) (n : Nat), rb.size ≤ 2147483648 →
    Ring.Wf rb.size rb.head rb.tail n → n + data.length ≤ rb.size →
      (rbStore rb data).size = rb.size ∧ (rbStore rb data).head = rb.head ∧ (rbStore rb data).len = rb.len ∧
        Ring.Wf rb.size rb.head (rbStore rb data).tail (n + data.length) ∧
        Ring.content (rbStore rb data).buf rb.size rb.head (n + data.length) =
          Ring.content rb.buf rb.size rb.head n ++ data
  | [], rb, n, _, hw, _ => by
    refine ⟨rfl, rfl, rfl, hw, ?_⟩
    simp [rbStore]
  | b :: data, rb, n, hsize, hw, hfit => by
    have hlt : n < rb.size := by
      simp only [List.length_cons] at hfit
      omega
    have htail : add32 rb.tail 1 = rb.tail + 1 := by
      have := hw.wr_lt
      exact add32_of_lt (by unfold word32; omega)
    have hpush := hw.push hlt
    rw [← htail] at hpush
    obtain ⟨h1, h2, h3, h4, h5⟩ := rbStore_spec data
      { rb with buf := Function.update rb.buf rb.tail b, tail := add32 rb.tail 1 % rb.size } (n + 1) hsize hpush
      (by simp only [List.length_cons] at hfit; simp only; omega)
    have hn : n + (b :: data).length = n + 1 + data.length := by
      simp only [List.length_cons]
      omega
    rw [hn]
    refine ⟨h1, h2, h3, h4, ?_⟩
    simp only [rbStore]
    rw [h5, Ring.content_push hw hlt b, List.append_assoc, List.singleton_append]

/-- **A write appends the first bytes that fit** and says how many. -/
theorem sockRingbufWrite_spec {rb : SockRingbuf} (h : rb.Wf) (data : List UInt8) :
    (sockRingbufWrite rb data).1.Wf ∧ (sockRingbufWrite rb data).1.size = rb.size ∧
      (sockRingbufWrite rb data).2 = min data.length (rb.size - rb.len) ∧
      (sockRingbufWrite rb data).1.bytes = rb.bytes ++ data.take (sockRingbufWrite rb data).2 := by
  have hle := h.len_le
  have hsmall := h.small
  have hspace : sub32 rb.size rb.len = rb.size - rb.len := sub32_of_le hle (by unfold word32; omega)
  have hlen : (if sub32 rb.size rb.len < data.length then sub32 rb.size rb.len else data.length) =
      min data.length (rb.size - rb.len) := by
    rw [hspace]
    split <;> omega
  unfold sockRingbufWrite
  simp only [hlen]
  generalize hk : min data.length (rb.size - rb.len) = k
  rcases h.ring with ⟨hs, hl⟩ | hr
  · -- no memory: no room, nothing stored
    have hk0 : k = 0 := by omega
    subst hk0
    have h0 : add32 rb.len 0 = rb.len := by
      rw [hl]
      rfl
    simp only [List.take_zero, rbStore, h0, List.append_nil]
    exact ⟨⟨hsmall, .inl ⟨hs, hl⟩⟩, trivial, trivial, trivial⟩
  · have htake : (data.take k).length = k := by
      rw [List.length_take]
      omega
    obtain ⟨h1, h2, h3, h4, h5⟩ := rbStore_spec (data.take k) rb rb.len hsmall hr (by rw [htake]; omega)
    rw [htake] at h4 h5
    have hsum : add32 rb.len k = rb.len + k := add32_of_lt (by unfold word32; omega)
    refine ⟨⟨by rw [h1]; exact hsmall, .inr ?_⟩, h1, trivial, ?_⟩
    · simp only [h1, h2, h3, hsum]
      exact h4
    · simp only [SockRingbuf.bytes, h1, h2, h3, hsum]
      exact h5

theorem read_cells {rb : SockRingbuf} (hsmall : rb.size ≤ 2147483648) (hr : Ring.Wf rb.size rb.head rb.tail rb.len)
    {n : Nat} (hn : n ≤ rb.len) :
    (List.range n).map (fun i => rb.buf (add32 rb.head i % rb.size)) = rb.bytes.take n := by
  have hh := hr.rd_lt
  have hl := hr.len_le
  simp only [SockRingbuf.bytes, Ring.content]
  rw [← List.map_take, List.take_range, Nat.min_eq_left hn]
  refine List.map_congr_left fun i hi => ?_
  have := List.mem_range.1 hi
  rw [add32_of_lt (by unfold word32; omega)]

/-- **A read takes the oldest bytes**; a peek sees the same bytes and leaves the ring alone. -/
theorem sockRingbufRead_spec {rb : SockRingbuf} (h : rb.Wf) (n : Nat) (peek : Bool) :
    (sockRingbufRead rb n peek).1.Wf ∧ (sockRingbufRead rb n peek).1.size = rb.size ∧
      (sockRingbufRead rb n peek).2 = rb.bytes.take n ∧
      (sockRingbufRead rb n peek).1.bytes = if peek then rb.bytes else rb.bytes.drop n := by
  unfold sockRingbufRead
  by_cases h0 : rb.len = 0
  · have hnil : rb.bytes = [] := List.length_eq_zero_iff.1 (by rw [SockRingbuf.length_bytes, h0])
    rw [if_pos h0, hnil]
    refine ⟨h, rfl, ?_, ?_⟩
    · simp
    · simp
  · rw [if_neg h0]
    rcases h.ring with ⟨-, hl⟩ | hr
    · exact absurd hl h0
    have hsmall := h.small
    have hh := hr.rd_lt
    have hl := hr.len_le
    generalize hk : (if rb.len < n then rb.len else n) = k
    have hkle : k ≤ rb.len := by
      rw [← hk]
      split <;> omega
    have htake : rb.bytes.take n = rb.bytes.take k := by
      by_cases hn : rb.len < n
      · rw [if_pos hn] at hk
        rw [← hk, List.take_of_length_le (by rw [SockRingbuf.length_bytes]; omega),
          List.take_of_length_le (by rw [SockRingbuf.length_bytes])]
      · rw [if_neg hn] at hk
        rw [hk]
    have hdrop : rb.bytes.drop n = rb.bytes.drop k := by
      by_cases hn : rb.len < n
      · rw [if_pos hn] at hk
        rw [← hk, List.drop_of_length_le (by rw [SockRingbuf.length_bytes]; omega),
          List.drop_of_length_le (by rw [SockRingbuf.length_bytes])]
      · rw [if_neg hn] at hk
        rw [hk]
    rw [htake, hdrop]
    cases peek with
    | true => exact ⟨h, rfl, read_cells hsmall hr hkle, rfl⟩
    | false =>
      have hhead : add32 rb.head k = rb.head + k := add32_of_lt (by unfold word32; omega)
      have hlen : sub32 rb.len k = rb.len - k := sub32_of_le hkle (by unfold word32; omega)
      simp only [Bool.false_eq_true, if_false, hhead, hlen]
      refine ⟨⟨hsmall, .inr (hr.drop hkle)⟩, trivial, read_cells hsmall hr hkle, ?_⟩
      exact (Ring.content_drop hkle).symm

theorem sockRingbufRead_peek (rb : SockRingbuf) (n : Nat) : (sockRingbufRead rb n true).1 = rb := by
  unfold sockRingbufRead
  by_cases h0 : rb.len = 0
  · rw [if_pos h0]
  · rw [if_neg h0]
    rfl

/-! ### Runs of one ring -/

/-- A call on the ring: what to write, or how much to read and whether only to look. -/
inductive RbCall
  | write (data : List UInt8)
  | read (len : Nat) (peek : Bool)

/-- A ring, the bytes its writes accepted so far and the bytes its non-peeking reads returned. -/
structure RbLog where
  rb : SockRingbuf
  accepted : List UInt8
  returned : List UInt8

def RbLog.call (s : RbLog) : RbCall → RbLog
  | .write data =>
    let (rb, n) := sockRingbufWrite s.rb data
    { s with rb := rb, accepted := s.accepted ++ data.take n }
  | .read len peek =>
    let (rb, data) := sockRingbufRead s.rb len peek
    { s with rb := rb, returned := if peek then s.returned else s.returned ++ data }

/-- A socket's ring from `sock_ringbuf_init` with memory on, under calls in any order. -/
def rbMachine (size : Nat) : Machine RbLog RbCall where
  init s := ∃ buf, s = ⟨sockRingbufInit (some buf) size, [], []⟩
  step s c := some (s.call c)

/-- What a ring of `size` cells keeps of its history. -/
structure RbLog.Fifo (size : Nat) (s : RbLog) : Prop where
  small : size ≤ 2147483648
  size_eq : s.rb.size = size
  ring : Ring.Wf size s.rb.head s.rb.tail s.rb.len
  order : s.returned ++ s.rb.bytes = s.accepted

theorem RbLog.Fifo.wf {size : Nat} {s : RbLog} (h : s.Fifo size) : s.rb.Wf := by
  refine ⟨?_, .inr ?_⟩
  · rw [h.size_eq]
    exact h.small
  · rw [h.size_eq]
    exact h.ring

theorem SockRingbuf.Wf.ring_of_pos {rb : SockRingbuf} (h : rb.Wf) {size : Nat} (hs : rb.size = size) (h0 : 0 < size) :
    Ring.Wf size rb.head rb.tail rb.len := by
  rcases h.ring with ⟨hz, -⟩ | hr
  · omega
  · rw [← hs]
    exact hr

theorem RbLog.Fifo.call {size : Nat} {s : RbLog} (h : s.Fifo size) (c : RbCall) : (s.call c).Fifo size := by
  have h0 := h.ring.size_pos
  cases c with
  | write data =>
    obtain ⟨hwf, hs, -, hbytes⟩ := sockRingbufWrite_spec h.wf data
    have hs' := hs.trans h.size_eq
    refine ⟨h.small, hs', hwf.ring_of_pos hs' h0, ?_⟩
    show s.returned ++ (sockRingbufWrite s.rb data).1.bytes = s.accepted ++ data.take (sockRingbufWrite s.rb data).2
    rw [hbytes, ← List.append_assoc, h.order]
  | read n peek =>
    obtain ⟨hwf, hs, hdata, hbytes⟩ := sockRingbufRead_spec h.wf n peek
    have hs' := hs.trans h.size_eq
    refine ⟨h.small, hs', hwf.ring_of_pos hs' h0, ?_⟩
    show (if peek then s.returned else s.returned ++ (sockRingbufRead s.rb n peek).2) ++
      (sockRingbufRead s.rb n peek).1.bytes = s.accepted
    rw [hbytes, hdata]
    cases peek with
    | true => exact h.order
    | false =>
      show s.returned ++ s.rb.bytes.take n ++ s.rb.bytes.drop n = s.accepted
      rw [List.append_assoc, List.take_append_drop, h.order]

theorem rbMachine_fifo {size : Nat} (h0 : 0 < size) (hsize : size ≤ 2147483648) {s₀ s : RbLog} {calls : List RbCall}
    (hinit : (rbMachine size).init s₀) (hrun : (rbMachine size).run s₀ calls = some s) : s.Fifo size := by
  refine (rbMachine size).run_invariant (fun s c t hs ht => ?_) calls s₀ s ?_ hrun
  · cases ht
    exact hs.call c
  · obtain ⟨buf, rfl⟩ := hinit
    exact ⟨hsize, rfl, Ring.wf_zero h0, rfl⟩

/-- **The socket ring is a bounded queue**: after any calls it holds at most `size` bytes, with `tail` as far behind `head`
as it is long; what was read and what is still held, one after the other, is what was accepted; the next write accepts the
first bytes that fit; the next read returns the oldest bytes, and a peek before it returns the same and changes nothing. -/
theorem sockRingbuf_fifo {size : Nat} (h0 : 0 < size) (hsize : size ≤ 2147483648) {s₀ s : RbLog} {calls : List RbCall}
    (hinit : (rbMachine size).init s₀) (hrun : (rbMachine size).run s₀ calls = some s) :
    (s.rb.size = size ∧ s.rb.len ≤ size ∧ s.rb.tail = (s.rb.head + s.rb.len) % size) ∧
      s.returned ++ s.rb.bytes = s.accepted ∧
      (∀ data, (sockRingbufWrite s.rb data).2 = min data.length (size - s.rb.len) ∧
        (s.call (.write data)).accepted = s.accepted ++ data.take (min data.length (size - s.rb.len))) ∧
      ∀ n, (sockRingbufRead s.rb n false).2 = s.rb.bytes.take n ∧
        (sockRingbufRead s.rb n true).2 = (sockRingbufRead s.rb n false).2 ∧ (sockRingbufRead s.rb n true).1 = s.rb := by
  have h := rbMachine_fifo h0 hsize hinit hrun
  refine ⟨⟨h.size_eq, h.ring.len_le, h.ring.wr_eq⟩, h.order, fun data => ?_, fun n => ?_⟩
  · obtain ⟨-, -, hlen, -⟩ := sockRingbufWrite_spec h.wf data
    rw [h.size_eq] at hlen
    refine ⟨hlen, ?_⟩
    show s.accepted ++ data.take (sockRingbufWrite s.rb data).2 = _
    rw [hlen]
  · obtain ⟨-, -, hpeek, -⟩ := sockRingbufRead_spec h.wf n true
    obtain ⟨-, -, hread, -⟩ := sockRingbufRead_spec h.wf n false
    exact ⟨hread, hpeek.trans hread.symm, sockRingbufRead_peek s.rb n⟩

/-- A full ring of two cells that wraps: three bytes offered, one read, one more written. -/
theorem sockRingbuf_fifo_wraps :
    ∃ s, (rbMachine 2).run ⟨sockRingbufInit (some fun _ => 0) 2, [], []⟩
        [.write [1, 2, 3], .read 1 true, .read 1 false, .write [4]] = some s ∧
      s.accepted = [1, 2, 4] ∧ s.returned = [1] ∧ s.returned ++ s.rb.bytes = s.accepted := by
  refine ⟨_, rfl, by decide, by decide, ?_⟩
  have hinit : (rbMachine 2).init ⟨sockRingbufInit (some fun _ => 0) 2, [], []⟩ := ⟨_, rfl⟩
  exact (@sockRingbuf_fifo 2 (by decide) (by decide) _ _
    [.write [1, 2, 3], .read 1 true, .read 1 false, .write [4]] hinit rfl).2.1

end Net
end Pico
