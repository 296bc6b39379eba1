import Mathlib.Algebra.Group.Nat.Defs
import Mathlib.Data.List.Forall2
import Picomimi.Pipe
/-!
# PipeRun — the pipe is a byte stream

`pbuf_write` and `pbuf_read` are the two ends of a bounded queue (`pbufWrite_spec`, `pbufRead_spec`).  Over them, `Inv`
holds after every section of every thread: the bytes read, then the bytes in the ring, are the bytes taken from writers;
what was taken of a thread is what its calls returned of their buffers; and a write of at most `PIPE_BUF` bytes is taken
in one section or not at all.
-/
namespace Pico
namespace Pipe

open Lib

/-- The bytes in the ring, oldest first. -/
def PipeBuffer.bytes (pb : PipeBuffer) : List UInt8 := Ring.content pb.data pb.size pb.tail pb.count

/-- **A ring as `pipe_alloc` makes it and the two loops keep it.** -/
structure PipeBuffer.Wf (pb : PipeBuffer) : Prop where
  pow : ∃ k, pb.size = 2 ^ k
  ring : Ring.Wf pb.size pb.tail pb.head pb.count

@[simp] theorem PipeBuffer.length_bytes (pb : PipeBuffer) : pb.bytes.length = pb.count := Ring.length_content

/-- The masks of the two loops are remainders: the size is a power of two. -/
theorem PipeBuffer.Wf.mask {pb : PipeBuffer} (h : pb.Wf) (x : Nat) : x &&& (pb.size - 1) = x % pb.size := by
  obtain ⟨k, hk⟩ := h.pow
  rw [hk]
  exact Nat.and_two_pow_sub_one_eq_mod x k

/-! ## The two loops -/

/-- **`pbuf_write` appends what fits** and says how much that is. -/
theorem pbufWrite_spec : ∀ (src : List UInt8) (pb : PipeBuffer), pb.Wf →
    (pbufWrite pb src).1.Wf ∧ (pbufWrite pb src).1.size = pb.size ∧
      (pbufWrite pb src).2 = min src.length (pbufSpace pb) ∧
      (pbufWrite pb src).1.bytes = pb.bytes ++ src.take (pbufWrite pb src).2
  | [], pb, h => by
    refine ⟨h, rfl, ?_, ?_⟩
    · simp [pbufWrite]
    · simp [pbufWrite]
  | b :: src, pb, h => by
    unfold pbufWrite
    by_cases hlt : pb.count < pb.size
    · rw [if_pos hlt]
      have hring := h.ring.push hlt
      rw [← h.mask] at hring
      obtain ⟨hwf, hsize, hn, hbytes⟩ := pbufWrite_spec src
        { pb with
          data := Function.update pb.data pb.head b
          head := (pb.head + 1) &&& (pb.size - 1)
          count := pb.count + 1 } ⟨h.pow, hring⟩
      refine ⟨hwf, hsize, ?_, ?_⟩
      · simp only [hn, pbufSpace, List.length_cons]
        omega
      · simp only [hbytes, List.take_succ_cons]
        have hpush : Ring.content (Function.update pb.data pb.head b) pb.size pb.tail (pb.count + 1) = pb.bytes ++ [b] :=
          Ring.content_push h.ring hlt b
        simp only [PipeBuffer.bytes] at hpush ⊢
        rw [hpush, List.append_assoc, List.singleton_append]
    · rw [if_neg hlt]
      have hfull : pbufSpace pb = 0 := by
        unfold pbufSpace
        omega
      refine ⟨h, rfl, ?_, ?_⟩
      · simp [hfull]
      · simp

/-- **`pbuf_read` takes the oldest bytes.** -/
theorem pbufRead_spec : ∀ (n : Nat) (pb : PipeBuffer), pb.Wf →
    (pbufRead pb n).1.Wf ∧ (pbufRead pb n).1.size = pb.size ∧
      (pbufRead pb n).2 ++ (pbufRead pb n).1.bytes = pb.bytes ∧
      (pbufRead pb n).2.length = min n pb.count
  | 0, pb, h => by
    refine ⟨h, rfl, rfl, ?_⟩
    simp [pbufRead]
  | n + 1, pb, h => by
    unfold pbufRead
    by_cases hpos : 0 < pb.count
    · rw [if_pos hpos]
      obtain ⟨m, hm⟩ : ∃ m, pb.count = m + 1 := ⟨pb.count - 1, by omega⟩
      have hring : Ring.Wf pb.size pb.tail pb.head (m + 1) := hm ▸ h.ring
      have hpop : Ring.content pb.data pb.size pb.tail (m + 1) =
          pb.data pb.tail :: Ring.content pb.data pb.size ((pb.tail + 1) % pb.size) m := Ring.content_pop hring
      have hring' := hring.pop
      rw [← h.mask] at hring' hpop
      obtain ⟨hwf, hsize, hbytes, hlen⟩ := pbufRead_spec n
        { pb with tail := (pb.tail + 1) &&& (pb.size - 1), count := pb.count - 1 }
        ⟨h.pow, by rw [hm]; exact hring'⟩
      refine ⟨hwf, hsize, ?_, ?_⟩
      · rw [List.cons_append, hbytes]
        simp only [PipeBuffer.bytes]
        rw [hm, Nat.add_sub_cancel, hpop]
      · simp only [List.length_cons, hlen]
        omega
    · rw [if_neg hpos]
      refine ⟨h, rfl, rfl, ?_⟩
      simp only [List.length_nil]
      omega

/-! ## `pipe_alloc` -/

/-- Once the shift has reached 0 the loop never ends. -/
theorem roundSize_zero {want : Nat} (h : 0 < want) : ∀ fuel, roundSize fuel 0 want = none
  | 0 => rfl
  | fuel + 1 => by
    simp only [roundSize]
    rw [if_pos h]
    exact roundSize_zero h fuel

/-- **The size is a power of two**, from the page size on. -/
theorem roundSize_pow : ∀ {fuel k want n : Nat}, 12 ≤ k → k < 64 → roundSize fuel (2 ^ k) want = some n →
    ∃ j, 12 ≤ j ∧ n = 2 ^ j
  | 0, _, _, _, _, _, h => by cases h
  | fuel + 1, k, want, n, h12, h64, h => by
    simp only [roundSize] at h
    by_cases hlt : 2 ^ k < want
    · rw [if_pos hlt, ← Nat.pow_succ] at h
      by_cases htop : k.succ = 64
      · rw [htop, show 2 ^ 64 % word64 = 0 by decide, roundSize_zero (Nat.lt_of_le_of_lt (Nat.zero_le _) hlt)] at h
        cases h
      · have hmod : 2 ^ k.succ < 2 ^ 64 := Nat.pow_lt_pow_right (Nat.lt_succ_self 1) (by omega)
        rw [show word64 = 2 ^ 64 by decide, Nat.mod_eq_of_lt hmod] at h
        exact roundSize_pow (by omega) (by omega) h
    · rw [if_neg hlt] at h
      cases h
      exact ⟨k, h12, rfl⟩

/-- **A pipe that was allocated** is an empty ring whose size is a power of two, one page to 1 MB. -/
theorem pipeAlloc_wf {bufSize : Nat} {data : Option (Nat → UInt8)} {pi : PipeInode}
    (h : pipeAlloc bufSize data = some pi) :
    pi.buf.Wf ∧ pi.buf.bytes = [] ∧ pageSize ≤ pi.buf.size ∧ pi.buf.size ≤ pipeMaxSize := by
  unfold pipeAlloc at h
  cases hsz : roundSize 64 pageSize bufSize with
  | none =>
    rw [hsz] at h
    cases h
  | some sz =>
    cases data with
    | none =>
      rw [hsz] at h
      cases h
    | some data =>
      rw [hsz] at h
      cases h
      obtain ⟨j, hj, rfl⟩ := roundSize_pow (k := 12) (Nat.le_refl 12) (by decide) hsz
      have hpage : pageSize ≤ 2 ^ j := Nat.pow_le_pow_right (Nat.succ_pos 1) hj
      have hmax : pageSize ≤ pipeMaxSize := by decide
      by_cases hbig : pipeMaxSize < 2 ^ j
      · simp only [if_pos hbig]
        exact ⟨⟨⟨20, rfl⟩, Ring.wf_zero (show 0 < pipeMaxSize by decide)⟩, rfl, hmax, Nat.le_refl _⟩
      · simp only [if_neg hbig]
        exact ⟨⟨⟨j, rfl⟩, Ring.wf_zero (Nat.lt_of_lt_of_le (by decide) hpage)⟩, rfl, hpage, Nat.le_of_not_lt hbig⟩

/-! ## The stream -/

/-- The bytes taken from writers, in order. -/
def State.stream (s : State) : List UInt8 := s.accepted.flatMap Chunk.bytes

/-- The calls of a thread that have returned, in order. -/
def State.callsOf (s : State) (t : Nat) : List Ret := (s.rets.filter fun d => d.thread = t).map Done.ret

/-- What was stored of a thread's buffers, section by section. -/
def State.storedOf (s : State) (t : Nat) : List (List UInt8) :=
  (s.accepted.filter fun c => c.thread = t).map Chunk.bytes

/-- The bytes a call copied out. -/
def Ret.dst : Ret → List UInt8
  | .read dst _ => dst
  | .write _ _ _ => []

/-- The bytes the finished reads copied out, in order. -/
def delivered (rets : List Done) : List UInt8 := rets.flatMap fun d => d.ret.dst

/-- **A read returns how many bytes it copied out**, at most its `count`; one that fails copies none. -/
def ReadOk (count : Nat) : Ret → Prop
  | .read dst ret => dst.length ≤ count ∧ (0 ≤ ret → ret = dst.length) ∧ (ret < 0 → dst = [])
  | .write _ _ _ => True

/-- **What was stored of a call is the beginning of its buffer, as much as it returned**, nothing if it failed; a small
write that succeeded was stored whole, and in one section. -/
def RetOk : Ret → List (List UInt8) → Prop
  | .read _ _, l => l = []
  | .write buf ret _, l => ret ≤ buf.length ∧ l.flatten = buf.take ret.toNat ∧
      (buf.length ≤ pipeBuf → 0 ≤ ret → ret = buf.length ∧ l.length ≤ 1)

/-- What was stored of a call that goes on is the beginning of its buffer; of a small write, nothing. -/
def PcOk : Pc → List (List UInt8) → Prop
  | .writeTop buf written _, l | .writeWait buf written _, l =>
    written < buf.length ∧ l.flatten = buf.take written ∧ (buf.length ≤ pipeBuf → written = 0 ∧ l = [])
  | _, l => l = []

/-- **What was stored of a thread is what was stored of its calls**, one after the other, and of the call it is in. -/
def WritesOk (calls : List Ret) (pc : Pc) (stored : List (List UInt8)) : Prop :=
  ∃ done now, List.Forall₂ RetOk calls done ∧ PcOk pc now ∧ stored = done.flatten ++ now

structure Inv (s : State) : Prop where
  wf : s.pi.buf.Wf
  stream : delivered s.rets ++ s.pi.buf.bytes = s.stream
  reads : ∀ d ∈ s.rets, ReadOk d.count d.ret
  writes : ∀ t, WritesOk (s.callsOf t) (s.pc t) (s.storedOf t)

/-- What `store` adds to the stream. -/
def piece (src : List UInt8) (k : Nat) : List (List UInt8) := if k = 0 then [] else [src.take k]

@[simp] theorem piece_zero (src : List UInt8) : piece src 0 = [] := rfl

@[simp] theorem flatten_piece (src : List UInt8) (k : Nat) : (piece src k).flatten = src.take k := by
  unfold piece
  split
  · rename_i h
    rw [h]
    rfl
  · simp

@[simp] theorem State.store_zero (s : State) (t : Nat) (src : List UInt8) : s.store t src 0 = s := rfl

theorem State.stream_store (s : State) (t : Nat) (src : List UInt8) (k : Nat) :
    (s.store t src k).stream = s.stream ++ src.take k := by
  unfold State.store
  split
  · rename_i h
    rw [h, List.take_zero, List.append_nil]
  · simp [State.stream]

theorem State.storedOf_store (s : State) (t u : Nat) (src : List UInt8) (k : Nat) :
    (s.store t src k).storedOf u = if u = t then s.storedOf t ++ piece src k else s.storedOf u := by
  unfold State.store piece
  by_cases hk : k = 0
  · by_cases hu : u = t
    · simp [hk, hu]
    · simp [hk, hu]
  · by_cases hu : u = t
    · simp [State.storedOf, hk, hu]
    · simp [State.storedOf, hk, hu, Ne.symm hu]

theorem State.store_rest (s : State) (t : Nat) (src : List UInt8) (k : Nat) :
    (s.store t src k).pi = s.pi ∧ (s.store t src k).pc = s.pc ∧ (s.store t src k).rets = s.rets := by
  unfold State.store
  split
  · exact ⟨rfl, rfl, rfl⟩
  · exact ⟨rfl, rfl, rfl⟩

theorem State.callsOf_append (s : State) (pi : PipeInode) (pc : Nat → Pc) (d : Done) (u : Nat) :
    State.callsOf ⟨pi, pc, s.rets ++ [d], s.accepted⟩ u =
      if u = d.thread then s.callsOf u ++ [d.ret] else s.callsOf u := by
  by_cases hu : u = d.thread
  · simp [State.callsOf, hu]
  · simp [State.callsOf, hu, Ne.symm hu]

/-- The bytes a thread's next state hands to its caller. -/
def Next.bytes : Next → List UInt8
  | .ret r => r.dst
  | .go _ => []

/-- What a thread's next state must satisfy, with `l` stored of its call. -/
def NextOk (count : Nat) : Next → List (List UInt8) → Prop
  | .ret r, l => ReadOk count r ∧ RetOk r l
  | .go pc, l => PcOk pc l

/-- **One section of thread `t`**: the ring moves on, the thread hands out `n.bytes`, and the first `k` bytes of `src`
join the stream. -/
theorem Inv.next {s : State} (hi : Inv s) (t count : Nat) (pi : PipeInode) (n : Next) (src : List UInt8) (k : Nat)
    (hwf : pi.buf.Wf) (hbytes : n.bytes ++ pi.buf.bytes = s.pi.buf.bytes ++ src.take k)
    (hn : ∀ l, PcOk (s.pc t) l → NextOk count n (l ++ piece src k)) :
    Inv ((s.store t src k).next t count pi n) := by
  obtain ⟨hpi, hpc, hrets⟩ := s.store_rest t src k
  obtain ⟨done, now, hdone, hnow, hstored⟩ := hi.writes t
  have hnext := hn now hnow
  have hmine : (s.store t src k).storedOf t = done.flatten ++ (now ++ piece src k) := by
    rw [State.storedOf_store, if_pos rfl, hstored, List.append_assoc]
  have hothers : ∀ u, u ≠ t → WritesOk (s.callsOf u) (s.pc u) ((s.store t src k).storedOf u) := by
    intro u hu
    rw [State.storedOf_store, if_neg hu]
    exact hi.writes u
  cases n with
  | ret r =>
    constructor
    · exact hwf
    · show delivered ((s.store t src k).rets ++ [⟨t, count, r⟩]) ++ pi.buf.bytes = (s.store t src k).stream
      have hb : r.dst ++ pi.buf.bytes = s.pi.buf.bytes ++ src.take k := hbytes
      rw [hrets, delivered, List.flatMap_append, List.append_assoc, State.stream_store, ← hi.stream, List.append_assoc,
        ← hb]
      simp [delivered]
    · intro d hd
      have hd : d ∈ (s.store t src k).rets ++ [⟨t, count, r⟩] := hd
      rw [hrets] at hd
      rcases List.mem_append.1 hd with hd | hd
      · exact hi.reads d hd
      · rw [List.mem_singleton.1 hd]
        exact hnext.1
    · intro u
      show WritesOk (State.callsOf ⟨pi, _, (s.store t src k).rets ++ [⟨t, count, r⟩], (s.store t src k).accepted⟩ u)
        (Function.update (s.store t src k).pc t .user u) ((s.store t src k).storedOf u)
      rw [State.callsOf_append, hpc, show (s.store t src k).callsOf u = s.callsOf u by simp only [State.callsOf, hrets]]
      by_cases hu : u = t
      · subst hu
        rw [if_pos rfl, Function.update_self, hmine]
        refine ⟨done ++ [now ++ piece src k], [], List.rel_append hdone (.cons hnext.2 .nil), rfl, ?_⟩
        simp
      · rw [if_neg hu, Function.update_of_ne hu]
        exact hothers u hu
  | go pc =>
    constructor
    · exact hwf
    · show delivered (s.store t src k).rets ++ pi.buf.bytes = (s.store t src k).stream
      have hb : pi.buf.bytes = s.pi.buf.bytes ++ src.take k := hbytes
      rw [hrets, hb, State.stream_store, ← hi.stream, List.append_assoc]
    · intro d hd
      have hd : d ∈ (s.store t src k).rets := hd
      rw [hrets] at hd
      exact hi.reads d hd
    · intro u
      show WritesOk ((s.store t src k).callsOf u) (Function.update (s.store t src k).pc t pc u)
        ((s.store t src k).storedOf u)
      rw [hpc, show (s.store t src k).callsOf u = s.callsOf u by simp only [State.callsOf, hrets]]
      by_cases hu : u = t
      · subst hu
        rw [Function.update_self, hmine]
        exact ⟨done, now ++ piece src k, hdone, hnext, rfl⟩
      · rw [Function.update_of_ne hu]
        exact hothers u hu

/-- A call that returns, and leaves the ring alone. -/
theorem Inv.ret {s : State} (hi : Inv s) (t count : Nat) {r : Ret} (hempty : r.dst = []) (hread : ReadOk count r)
    (hr : ∀ l, PcOk (s.pc t) l → RetOk r l) : Inv (s.next t count s.pi (.ret r)) := by
  have h := hi.next t count s.pi (.ret r) [] 0 hi.wf (by simp [Next.bytes, hempty])
    (fun l hl => ⟨hread, by rw [piece_zero, List.append_nil]; exact hr l hl⟩)
  rwa [State.store_zero] at h

/-- A thread that stays in its call, or begins one, and leaves the ring alone. -/
theorem Inv.go {s : State} (hi : Inv s) (t count : Nat) {pi : PipeInode} {pc : Pc} (hbuf : pi.buf = s.pi.buf)
    (hpc : ∀ l, PcOk (s.pc t) l → PcOk pc l) : Inv (s.next t count pi (.go pc)) := by
  have h := hi.next t count pi (.go pc) [] 0 (hbuf ▸ hi.wf) (by simp [Next.bytes, hbuf])
    (fun l hl => by rw [piece_zero, List.append_nil]; exact hpc l hl)
  rwa [State.store_zero] at h

/-- What a write that stores nothing more returns is an error, or its count so far. -/
theorem retOk_shortRet {buf : List UInt8} {written : Nat} {err : Int} {sig : Bool} {l : List (List UInt8)}
    (herr : 0 < err) (h : PcOk (.writeTop buf written false) l) : RetOk (.write buf (shortRet written err) sig) l := by
  obtain ⟨hlt, hl, hsmall⟩ := h
  unfold RetOk shortRet
  by_cases hw : 0 < written
  · simp only [if_pos hw]
    refine ⟨by omega, hl, fun hlen => ?_⟩
    have := (hsmall hlen).1
    omega
  · obtain rfl : written = 0 := by omega
    simp only [Nat.lt_irrefl, if_false]
    refine ⟨by omega, ?_, fun _ hret => by omega⟩
    rw [hl, Int.toNat_of_nonpos (by omega)]

/-- **One turn of `pipe_read`.** -/
theorem Inv.readTurn {s : State} (hi : Inv s) {t count : Nat} {nonblock : Bool}
    (hpc : s.pc t = .readTop count nonblock) :
    Inv (s.next t count (pipeReadTurn s.pi count nonblock).1 (pipeReadTurn s.pi count nonblock).2) := by
  have hnone : ∀ {l}, PcOk (s.pc t) l → l = [] := by
    intro l hl
    rw [hpc] at hl
    exact hl
  unfold pipeReadTurn
  by_cases hpos : 0 < s.pi.buf.count
  · rw [if_pos hpos]
    obtain ⟨hwf, -, hbytes, hlen⟩ := pbufRead_spec count s.pi.buf hi.wf
    have h := hi.next t count { s.pi with buf := (pbufRead s.pi.buf count).1 }
      (.ret (.read (pbufRead s.pi.buf count).2 (pbufRead s.pi.buf count).2.length)) [] 0 hwf
      (by simpa [Next.bytes, Ret.dst] using hbytes)
      (fun l hl => ⟨⟨by omega, fun _ => rfl, fun hneg => by omega⟩, by rw [hnone hl]; rfl⟩)
    rwa [State.store_zero] at h
  · rw [if_neg hpos]
    by_cases hw : s.pi.writers = 0
    · rw [if_pos hw]
      exact hi.ret t count rfl ⟨Nat.zero_le _, fun _ => rfl, fun _ => rfl⟩ fun l hl => hnone hl
    · rw [if_neg hw]
      cases nonblock with
      | true =>
        exact hi.ret t count rfl ⟨Nat.zero_le _, fun h => absurd h (by decide), fun _ => rfl⟩ fun l hl => hnone hl
      | false => exact hi.go t count rfl fun l hl => hnone hl

/-- **One turn of `pipe_write`**: what fits is stored, and a small write is stored whole or not at all. -/
theorem Inv.writeTurn {s : State} (hi : Inv s) {t : Nat} {buf : List UInt8} {written : Nat} {nonblock : Bool}
    (hpc : s.pc t = .writeTop buf written nonblock) :
    Inv ((s.store t (buf.drop written) (pipeWriteTurn s.pi buf written nonblock).2.1).next t buf.length
      (pipeWriteTurn s.pi buf written nonblock).1 (pipeWriteTurn s.pi buf written nonblock).2.2) := by
  have hcall : ∀ {l}, PcOk (s.pc t) l → PcOk (.writeTop buf written nonblock) l := fun hl => hpc ▸ hl
  unfold pipeWriteTurn
  by_cases hr : s.pi.readers = 0
  · rw [if_pos hr]
    exact hi.ret t buf.length rfl trivial fun l hl => retOk_shortRet (by decide) (hcall hl)
  · rw [if_neg hr]
    by_cases hfull : pbufSpace s.pi.buf = 0 ∨ (buf.length ≤ pipeBuf ∧ pbufSpace s.pi.buf < buf.length)
    · rw [if_pos hfull]
      cases nonblock with
      | true => exact hi.ret t buf.length rfl trivial fun l hl => retOk_shortRet (by decide) (hcall hl)
      | false => exact hi.go t buf.length rfl fun l hl => hcall hl
    · rw [if_neg hfull]
      obtain ⟨hwf, -, hn, hbytes⟩ := pbufWrite_spec (buf.drop written) s.pi.buf hi.wf
      rw [List.length_drop] at hn
      dsimp only
      generalize (pbufWrite s.pi.buf (buf.drop written)).2 = n at hn hbytes ⊢
      refine hi.next t buf.length _ _ (buf.drop written) n hwf ?_ fun l hl => ?_
      · split
        · exact hbytes
        · exact hbytes
      obtain ⟨hlt, hflat, hsmall⟩ := hcall hl
      have hnow : (l ++ piece (buf.drop written) n).flatten = buf.take (written + n) := by
        rw [List.flatten_append, flatten_piece, hflat, List.take_add]
      by_cases hmore : written + n < buf.length
      · -- a small write has found room for all of itself
        simp only [if_pos hmore]
        refine ⟨hmore, hnow, fun hlen => ?_⟩
        have := (hsmall hlen).1
        omega
      · simp only [if_neg hmore]
        refine ⟨trivial, by omega, by rw [hnow, Int.toNat_natCast], fun hlen _ => ⟨by omega, ?_⟩⟩
        rw [(hsmall hlen).2, List.nil_append]
        unfold piece
        split
        · exact Nat.zero_le _
        · exact Nat.le_refl _

theorem Inv.init {s : State} (h : machine.init s) : Inv s := by
  obtain ⟨⟨bufSize, data, hpi⟩, hpc, hrets, hacc⟩ := h
  obtain ⟨hwf, hbytes, -⟩ := pipeAlloc_wf hpi
  constructor
  · exact hwf
  · rw [State.stream, hrets, hacc, hbytes]
    rfl
  · intro d hd
    rw [hrets] at hd
    cases hd
  · intro t
    rw [State.callsOf, State.storedOf, hrets, hacc, hpc]
    exact ⟨[], [], .nil, rfl, rfl⟩

theorem Inv.turn {s s' : State} (hi : Inv s) {t : Nat} (h : Pipe.turn s t = some s') : Inv s' := by
  unfold Pipe.turn at h
  cases hp : s.pc t with
  | user =>
    rw [hp] at h
    cases h
  | readTop count nonblock =>
    rw [hp] at h
    cases h
    exact hi.readTurn hp
  | readWait count nonblock =>
    rw [hp] at h
    cases h
  | writeTop buf written nonblock =>
    rw [hp] at h
    cases h
    exact hi.writeTurn hp
  | writeWait buf written nonblock =>
    rw [hp] at h
    cases h

theorem Inv.wake {s s' : State} (hi : Inv s) {t : Nat} {signal : Bool} (h : Pipe.wake s t signal = some s') :
    Inv s' := by
  unfold Pipe.wake at h
  cases hp : s.pc t with
  | user =>
    rw [hp] at h
    cases h
  | readTop count nonblock =>
    rw [hp] at h
    cases h
  | readWait count nonblock =>
    rw [hp] at h
    have hnone : ∀ l, PcOk (s.pc t) l → l = [] := fun l hl => by rw [hp] at hl; exact hl
    cases h
    cases signal with
    | true => exact hi.ret t count rfl ⟨Nat.zero_le _, fun h => absurd h (by decide), fun _ => rfl⟩ hnone
    | false => exact hi.go t count rfl hnone
  | writeTop buf written nonblock =>
    rw [hp] at h
    cases h
  | writeWait buf written nonblock =>
    rw [hp] at h
    have hcall : ∀ l, PcOk (s.pc t) l → PcOk (.writeTop buf written false) l := fun l hl => by rw [hp] at hl; exact hl
    cases signal with
    | true =>
      cases h
      exact hi.ret t buf.length rfl trivial fun l hl => retOk_shortRet (by decide) (hcall l hl)
    | false =>
      cases h
      exact hi.go t buf.length rfl hcall

theorem isUser_eq {pc : Pc} (h : isUser pc = true) : pc = .user := by
  cases pc with
  | user => rfl
  | _ => cases h

/-- **Every step keeps the stream.** -/
theorem step_inv {s s' : State} {a : Label} (hi : Inv s) (h : step s a = some s') : Inv s' := by
  cases a with
  | callRead t count nonblock =>
    simp only [step] at h
    split at h
    · rename_i hu
      have hnone : ∀ l, PcOk (s.pc t) l → l = [] := fun l hl => by rw [isUser_eq hu] at hl; exact hl
      cases h
      unfold callRead
      split
      · exact hi.ret t count rfl ⟨Nat.zero_le _, fun _ => rfl, fun _ => rfl⟩ hnone
      · exact hi.go t count rfl hnone
    · cases h
  | callWrite t buf nonblock =>
    simp only [step] at h
    split at h
    · rename_i hu
      have hnone : ∀ l, PcOk (s.pc t) l → l = [] := fun l hl => by rw [isUser_eq hu] at hl; exact hl
      cases h
      unfold callWrite
      split
      · rename_i h0
        refine hi.ret t buf.length rfl trivial fun l hl => ?_
        rw [hnone l hl]
        exact ⟨Int.natCast_nonneg _, rfl, fun _ _ => ⟨by rw [h0]; rfl, Nat.zero_le _⟩⟩
      · rename_i h0
        split
        · refine hi.ret t buf.length rfl trivial fun l hl => ?_
          rw [hnone l hl]
          have hstart : PcOk (.writeTop buf 0 false) [] := ⟨Nat.pos_of_ne_zero h0, rfl, fun _ => ⟨rfl, rfl⟩⟩
          exact retOk_shortRet (by decide) hstart
        · refine hi.go t buf.length rfl fun l hl => ?_
          rw [hnone l hl]
          exact ⟨Nat.pos_of_ne_zero h0, rfl, fun _ => ⟨rfl, rfl⟩⟩
    · cases h
  | turn t =>
    simp only [step] at h
    split at h
    · exact hi.turn h
    · cases h
  | wake t signal =>
    simp only [step] at h
    split at h
    · exact hi.wake h
    · cases h
  | ends readers writers =>
    cases h
    exact ⟨hi.wf, hi.stream, hi.reads, hi.writes⟩

/-! ## Small writes -/

theorem exists_of_forall₂ {α β : Type} {R : α → β → Prop} {as : List α} {bs : List β} (h : List.Forall₂ R as bs)
    {a : α} (ha : a ∈ as) : ∃ b ∈ bs, R a b := by
  induction h with
  | nil => cases ha
  | cons hab _ ih =>
    rcases List.mem_cons.1 ha with rfl | ha
    · exact ⟨_, List.mem_cons_self, hab⟩
    · obtain ⟨b, hb, hr⟩ := ih ha
      exact ⟨b, List.mem_cons_of_mem _ hb, hr⟩

/-- What was stored in one section stands in the stream as it is. -/
theorem State.infix_of_storedOf {s : State} {t : Nat} {l : List UInt8} (h : l ∈ s.storedOf t) : l <:+: s.stream := by
  obtain ⟨c, hc, rfl⟩ := List.mem_map.1 h
  obtain ⟨l₁, l₂, hsplit⟩ := List.append_of_mem (List.mem_of_mem_filter hc)
  refine ⟨l₁.flatMap Chunk.bytes, l₂.flatMap Chunk.bytes, ?_⟩
  rw [State.stream, hsplit, List.flatMap_append, List.flatMap_cons, List.append_assoc]

/-- **A small write that returned success is one run of the stream**, and returned its length. -/
theorem Inv.small {s : State} (hi : Inv s) {d : Done} (hd : d ∈ s.rets) {buf : List UInt8} {ret : Int} {sig : Bool}
    (hr : d.ret = .write buf ret sig) (hlen : buf.length ≤ pipeBuf) (hret : 0 ≤ ret) :
    ret = buf.length ∧ buf <:+: s.stream := by
  obtain ⟨done, now, hdone, -, hstored⟩ := hi.writes d.thread
  have hmem : d.ret ∈ s.callsOf d.thread := List.mem_map_of_mem (List.mem_filter.2 ⟨hd, by simp⟩)
  obtain ⟨l, hl, hok⟩ := exists_of_forall₂ hdone hmem
  rw [hr] at hok
  obtain ⟨-, hflat, hsmall⟩ := hok
  obtain ⟨rfl, hone⟩ := hsmall hlen hret
  rw [Int.toNat_natCast, List.take_length] at hflat
  refine ⟨rfl, ?_⟩
  match l, hone with
  | [], _ =>
    rw [← hflat]
    exact List.nil_infix
  | [b], _ =>
    rw [← hflat, List.flatten_singleton]
    refine State.infix_of_storedOf (t := d.thread) ?_
    rw [hstored]
    exact List.mem_append_left _ (List.mem_flatten.2 ⟨[b], hl, List.mem_singleton.2 rfl⟩)

/-! ## The law -/

/-- **A pipe is a byte stream**: what the reads returned and what is still in the ring is what was taken from writers, in
order; that is, thread by thread, what its calls say they wrote of their buffers; and a small write is in one piece. -/
structure StreamOk (s : State) : Prop where
  stream : delivered s.rets ++ s.pi.buf.bytes = s.stream
  count_le : s.pi.buf.count ≤ s.pi.buf.size
  positions : (s.pi.buf.tail + s.pi.buf.count) % s.pi.buf.size = s.pi.buf.head % s.pi.buf.size
  reads : ∀ d ∈ s.rets, ReadOk d.count d.ret
  writes : ∀ t, WritesOk (s.callsOf t) (s.pc t) (s.storedOf t)
  small : ∀ d ∈ s.rets, ∀ buf ret sig, d.ret = .write buf ret sig → buf.length ≤ pipeBuf → 0 ≤ ret →
    ret = buf.length ∧ buf <:+: s.stream

theorem stream_of_run (l : List Label) (s s' : State) (h0 : machine.init s) (h : machine.run s l = some s') :
    StreamOk s' := by
  have hi : Inv s' := machine.run_invariant (fun _ _ _ hi hs => step_inv hi hs) l s s' (Inv.init h0) h
  refine ⟨hi.stream, hi.wf.ring.len_le, ?_, hi.reads, hi.writes, fun d hd _ _ _ hr => hi.small hd hr⟩
  rw [hi.wf.ring.wr_eq, Nat.mod_mod]

/-- Two writers and two readers: a reader sleeps, one write is read in two parts. -/
theorem stream_of_run_two :
    let s : State := ⟨⟨⟨fun _ => 0, 4096, 0, 0, 0⟩, 0, 0, none⟩, fun _ => .user, [], []⟩
    let l : List Label := [.ends 1 1, .callRead 0 2 false, .turn 0, .callWrite 1 [7, 8, 9] false, .callWrite 2 [1] true,
      .turn 1, .wake 0 false, .turn 0, .turn 2, .callRead 3 9 true, .turn 3]
    ∃ s', machine.run s l = some s' ∧ StreamOk s' := by
  intro s l
  have hinit : machine.init s := ⟨⟨1, some fun _ => 0, rfl⟩, fun _ => rfl, rfl, rfl⟩
  have hrun : (machine.run s l).isSome = true := by decide +kernel
  obtain ⟨s', h⟩ := Option.isSome_iff_exists.1 hrun
  exact ⟨s', h, stream_of_run l s s' hinit h⟩

/-! ## The lock after a wakeup -/

/-- The lock, once held between sections, is given back by no step. -/
theorem locked_step {s s' : State} {u : Nat} {a : Label} (hlock : s.pi.lock = some u) (h : step s a = some s') :
    s'.pi.lock = some u := by
  cases a with
  | callRead t count nonblock =>
    simp only [step] at h
    split at h
    · cases h
      unfold callRead
      split <;> exact hlock
    · cases h
  | callWrite t buf nonblock =>
    simp only [step] at h
    split at h
    · cases h
      unfold callWrite
      split
      · exact hlock
      · split <;> exact hlock
    · cases h
  | turn t =>
    simp only [step, hlock] at h
    cases h
  | wake t signal =>
    simp only [step, hlock] at h
    cases h
  | ends readers writers =>
    cases h
    exact hlock

/-- **A writer that wakes without a signal keeps the lock for good**: `pipe_write` goes back to its `spin_lock` with the
lock held, and from then on no section of any thread can start. -/
theorem woken_writer_locks {s s' s'' : State} {u : Nat} (h : step s (.wake u false) = some s') {buf : List UInt8}
    {written : Nat} {nonblock : Bool} (hpc : s.pc u = .writeWait buf written nonblock) (l : List Label)
    (hrun : machine.run s' l = some s'') :
    s''.pi.lock = some u ∧ ∀ t, step s'' (.turn t) = none ∧ ∀ signal, step s'' (.wake t signal) = none := by
  have hlock : s'.pi.lock = some u := by
    simp only [step, wake, hpc] at h
    split at h
    · cases h
      rfl
    · cases h
  have hend : s''.pi.lock = some u :=
    machine.run_invariant (P := fun s => s.pi.lock = some u) (fun _ _ _ hi hs => locked_step hi hs) l s' s'' hlock hrun
  refine ⟨hend, fun t => ⟨?_, fun signal => ?_⟩⟩
  · simp only [step, hend]
    rfl
  · simp only [step, hend]
    rfl

/-- A full pipe, and a writer that waits for room. -/
def fullPipe : State :=
  ⟨⟨⟨fun _ => 0, 4096, 0, 0, 4096⟩, 1, 1, none⟩, fun t => if t = 0 then .writeWait [1] 0 false else .user, [], []⟩

theorem woken_writer_locks_fullPipe : ∃ s' s'', step fullPipe (.wake 0 false) = some s' ∧
    machine.run s' [.callRead 1 8 false] = some s'' ∧ step s'' (.turn 1) = none := by
  have hwake : step fullPipe (.wake 0 false) = some _ := rfl
  have hrun : machine.run (fullPipe.next 0 1 { fullPipe.pi with lock := some 0 } (.go (.writeTop [1] 0 false)))
      [.callRead 1 8 false] = some _ := rfl
  exact ⟨_, _, hwake, hrun, ((woken_writer_locks hwake rfl _ hrun).2 1).1⟩

end Pipe
end Pico
