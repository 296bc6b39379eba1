import Mathlib.Logic.Function.Basic
import Picomimi.Lib.Run
import Picomimi.Lib.Word
/-!
# UserHeap — `malloc`, `calloc`, `realloc` and `free` of the C library

A block is a header of 24 bytes and what is behind it; `heap_head` and the `next` fields chain the blocks in the order in
which `sbrk` got them.  Sizes are `size_t`: rounding up, adding the header and `n * m` wrap.  The kernel moves the break where
it is asked to or fails (`grant`), and a break of 2⁶³ or more reads as a failure.
-/
namespace Pico
namespace UserHeap

open Lib

/-- `sizeof(block_t)`. -/
def BLOCK_HDR : Nat := 24

/-- `2 ^ 63`, the first value that is negative as a `long`. -/
def long63 : Nat := 9223372036854775808

/-- `block_t` and where it is. -/
structure Block where
  addr : Nat
  size : Nat
  free : Bool
  deriving DecidableEq

/-- The break, `heap_end` (0 is NULL), the chain from `heap_head`, and the bytes behind the headers. -/
structure State where
  brk : Nat
  heapEnd : Nat
  blocks : List Block
  mem : Nat → UInt8

/-- `sys_brk`: a break of 0 only asks. -/
def sysBrk (s : State) (grant : Bool) (addr : Nat) : State × Option Nat :=
  if addr = 0 then (s, some s.brk)
  else if grant ∧ addr < long63 then ({ s with brk := addr }, some addr)
  else (s, none)

/-- `sbrk`; `none` is `(char *)-1`. -/
def sbrk (s : State) (inc : Nat) (grant : Bool) : State × Option Nat :=
  let s := if s.heapEnd = 0 then { s with heapEnd := s.brk } else s
  let old := s.heapEnd
  let newEnd := add64 s.heapEnd inc
  match sysBrk s grant newEnd with
  | (s, none) => (s, none)
  | (s, some _) => ({ s with heapEnd := newEnd }, some old)

/-- `b->free = v` for the block at `addr`. -/
def setFree (bs : List Block) (addr : Nat) (v : Bool) : List Block :=
  bs.map fun b => if b.addr = addr then { b with free := v } else b

/-- `malloc`; `none` is NULL. -/
def malloc (s : State) (size : Nat) (grant : Bool) : State × Option Nat :=
  let size := alignUp size 8
  match s.blocks.find? fun b => b.free && decide (size ≤ b.size) with
  | some b => ({ s with blocks := setFree s.blocks b.addr false }, some (b.addr + BLOCK_HDR))
  | none =>
    match sbrk s (add64 size BLOCK_HDR) grant with
    | (s, none) => (s, none)
    | (s, some nb) =>
      if nb = 0 then (s, none)
      else ({ s with blocks := s.blocks ++ [⟨nb, size, false⟩] }, some (nb + BLOCK_HDR))

/-- `free` of a pointer that is not NULL. -/
def free (s : State) (ptr : Nat) : State := { s with blocks := setFree s.blocks (ptr - BLOCK_HDR) true }

def memset (mem : Nat → UInt8) (dst : Nat) (c : UInt8) (n : Nat) : Nat → UInt8 :=
  fun a => if dst ≤ a ∧ a < dst + n then c else mem a

def memcpy (mem : Nat → UInt8) (dst src n : Nat) : Nat → UInt8 :=
  fun a => if dst ≤ a ∧ a < dst + n then mem (src + (a - dst)) else mem a

/-- `calloc`. -/
def calloc (s : State) (n sz : Nat) (grant : Bool) : State × Option Nat :=
  match malloc s (n * sz % word64) grant with
  | (s, none) => (s, none)
  | (s, some p) => ({ s with mem := memset s.mem p 0 (n * sz % word64) }, some p)

/-- `realloc` of a pointer that is not NULL; the header is the one in front of it. -/
def realloc (s : State) (ptr size : Nat) (grant : Bool) : State × Option Nat :=
  match s.blocks.find? fun b => b.addr = ptr - BLOCK_HDR with
  | none => (s, none)
  | some b =>
    if size ≤ b.size then (s, some ptr)
    else
      match malloc s size grant with
      | (s, none) => (s, none)
      | (s, some np) => (free { s with mem := memcpy s.mem np ptr b.size } ptr, some np)

/-! ### What the program was promised -/

/-- What the program has at a pointer: the bytes it asked for and what they have to hold. -/
structure Alloc where
  size : Nat
  data : Nat → UInt8

/-- A heap, and what the program has of it. -/
structure Heap extends State where
  live : Nat → Option Alloc

/-- A call of the library, or a store of the program into a block it has. -/
inductive Call
  | malloc (n : UInt64) (grant : Bool)
  | calloc (n sz : UInt64) (grant : Bool)
  | realloc (ptr : Option Nat) (n : UInt64) (grant : Bool)
  | free (ptr : Option Nat)
  | store (ptr i : Nat) (v : UInt8)

/-- What the program has after a call that returned `r`: behind NULL what it had before. -/
def give (live : Nat → Option Alloc) (r : Option Nat) (a : Nat → Alloc) : Nat → Option Alloc :=
  match r with
  | none => live
  | some p => Function.update live p (some (a p))

/-- A call; a pointer that the program does not have is not passed. -/
def Heap.call (h : Heap) : Call → Option Heap
  | .malloc n grant =>
    let (s, r) := UserHeap.malloc h.toState n.toNat grant
    some ⟨s, give h.live r fun p => ⟨n.toNat, fun i => s.mem (p + i)⟩⟩
  | .calloc n sz grant =>
    let (s, r) := UserHeap.calloc h.toState n.toNat sz.toNat grant
    some ⟨s, give h.live r fun _ => ⟨n.toNat * sz.toNat, fun _ => 0⟩⟩
  | .realloc none n grant =>
    let (s, r) := UserHeap.malloc h.toState n.toNat grant
    some ⟨s, give h.live r fun p => ⟨n.toNat, fun i => s.mem (p + i)⟩⟩
  | .realloc (some p) n grant =>
    match h.live p with
    | none => none
    | some a =>
      match UserHeap.realloc h.toState p n.toNat grant with
      | (s, none) => some ⟨s, h.live⟩
      | (s, some q) =>
        let data := fun i => if i < min a.size n.toNat then a.data i else s.mem (q + i)
        some ⟨s, Function.update (Function.update h.live p none) q (some ⟨n.toNat, data⟩)⟩
  | .free none => some h
  | .free (some p) =>
    match h.live p with
    | none => none
    | some _ => some ⟨UserHeap.free h.toState p, Function.update h.live p none⟩
  | .store p i v =>
    match h.live p with
    | none => none
    | some a =>
      if i < a.size then
        some ⟨{ h.toState with mem := Function.update h.mem (p + i) v },
          Function.update h.live p (some { a with data := Function.update a.data i v })⟩
      else none

/-- A program from its start on, with its break at `start` and nothing allocated. -/
def heapMachine (start : Nat) : Machine Heap Call where
  init h := 0 < start ∧ start < long63 ∧ ∃ mem, h = ⟨⟨start, 0, [], mem⟩, fun _ => none⟩
  step := Heap.call

/-- **What the program may rely on**: each thing it has is in a block of its own that is not free, at least as long as it
asked for, inside the heap, apart from everything else it has and from every header, and holds what it has to hold. -/
def HeapLaw (start : Nat) (h : Heap) : Prop :=
  ∀ p a, h.live p = some a →
    (∃ b ∈ h.blocks, b.addr + BLOCK_HDR = p ∧ b.free = false ∧ a.size ≤ b.size ∧ start ≤ b.addr ∧ p + b.size ≤ h.brk) ∧
      (∀ q a', h.live q = some a' → q ≠ p → p + a.size ≤ q ∨ q + a'.size ≤ p) ∧
      (∀ b ∈ h.blocks, p + a.size ≤ b.addr ∨ b.addr + BLOCK_HDR ≤ p) ∧
      ∀ i < a.size, h.mem (p + i) = a.data i

/-- **The break takes the block a request leads to**: it does not go past 2⁶³ as the sum wraps, and the kernel moves it. -/
def Moves (s : State) (size : Nat) (grant : Bool) : Prop :=
  let newEnd := add64 s.brk (add64 (alignUp size 8) BLOCK_HDR)
  newEnd = 0 ∨ (grant = true ∧ newEnd < long63)

/-- **A request of `w` bytes is refused**: no free block has the size it is rounded to, and the break does not move. -/
def Refused (s : State) (w : Nat) (grant : Bool) : Prop :=
  (∀ b ∈ s.blocks, b.free = true → b.size < alignUp w 8) ∧ ¬Moves s w grant

/-- **The steps at which the heap keeps its word**: a request of less than 2⁶³ bytes, rounding and header included, or one
that is refused; for `calloc` the request is the product without wrapping. -/
def StepOk (h : Heap) : Call → Prop
  | .malloc n grant => n.toNat + 31 < long63 ∨ Refused h.toState n.toNat grant
  | .calloc n sz grant =>
    n.toNat * sz.toNat + 31 < long63 ∨ Refused h.toState (n.toNat * sz.toNat % word64) grant
  | .realloc _ n grant => n.toNat + 31 < long63 ∨ Refused h.toState n.toNat grant
  | .free _ => True
  | .store _ _ _ => True

/-! ### The chain of blocks -/

variable {start : Nat} {s : State} {w : Nat} {grant : Bool}

/-- The first byte behind a block. -/
def Block.fin (b : Block) : Nat := b.addr + BLOCK_HDR + b.size

/-- **The blocks of a heap**: one behind the other between the start and the break, each of a size that is a multiple of 8. -/
structure Wf (start : Nat) (s : State) : Prop where
  pos : 0 < start
  brk : start ≤ s.brk ∧ s.brk < long63
  top : s.heapEnd = 0 ∨ s.heapEnd = s.brk
  layout : s.blocks.Pairwise fun b c => b.fin ≤ c.addr
  inside : ∀ b ∈ s.blocks, start ≤ b.addr ∧ b.fin ≤ s.brk ∧ b.size % 8 = 0

theorem mem_setFree {bs : List Block} {addr : Nat} {v : Bool} {b : Block} (h : b ∈ setFree bs addr v) :
    ∃ c ∈ bs, b.addr = c.addr ∧ b.size = c.size ∧ (b.addr = addr → b.free = v) ∧ (b.addr ≠ addr → b = c) := by
  obtain ⟨c, hc, rfl⟩ := List.mem_map.1 h
  refine ⟨c, hc, ?_⟩
  by_cases ha : c.addr = addr
  · rw [if_pos ha]
    exact ⟨rfl, rfl, fun _ => rfl, fun hne => absurd ha hne⟩
  · rw [if_neg ha]
    exact ⟨rfl, rfl, fun h => absurd h ha, fun _ => rfl⟩

theorem mem_setFree_of_ne {bs : List Block} {addr : Nat} {v : Bool} {b : Block} (h : b ∈ bs) (ha : b.addr ≠ addr) :
    b ∈ setFree bs addr v := List.mem_map.2 ⟨b, h, if_neg ha⟩

theorem mem_setFree_self {bs : List Block} {v : Bool} {b : Block} (h : b ∈ bs) :
    { b with free := v } ∈ setFree bs b.addr v := List.mem_map.2 ⟨b, h, if_pos rfl⟩

/-- Flags are no part of the layout. -/
theorem Wf.setFree (h : Wf start s) (addr : Nat) (v : Bool) {e : Nat} (he : e = 0 ∨ e = s.brk) (mem : Nat → UInt8) :
    Wf start ⟨s.brk, e, setFree s.blocks addr v, mem⟩ := by
  refine ⟨h.pos, h.brk, he, ?_, fun b hb => ?_⟩
  · refine List.pairwise_map.2 (h.layout.imp fun {b c} hbc => ?_)
    have hb : (if b.addr = addr then { b with free := v } else b).fin = b.fin := by split <;> rfl
    have hc : (if c.addr = addr then { c with free := v } else c).addr = c.addr := by split <;> rfl
    rw [hb, hc]
    exact hbc
  · obtain ⟨c, hc, ha, hs, -⟩ := mem_setFree hb
    rw [Block.fin, ha, hs]
    exact h.inside c hc

/-- **Two blocks of a heap are apart.** -/
theorem apart_of_layout : ∀ {bs : List Block}, bs.Pairwise (fun b c => b.fin ≤ c.addr) → ∀ {b c : Block}, b ∈ bs → c ∈ bs →
    b = c ∨ b.fin ≤ c.addr ∨ c.fin ≤ b.addr
  | [], _, _, _, hb, _ => by cases hb
  | d :: bs, h, b, c, hb, hc => by
    obtain ⟨hd, hrest⟩ := List.pairwise_cons.1 h
    rcases List.mem_cons.1 hb with rfl | hb'
    · rcases List.mem_cons.1 hc with rfl | hc'
      · exact .inl rfl
      · exact .inr (.inl (hd c hc'))
    · rcases List.mem_cons.1 hc with rfl | hc'
      · exact .inr (.inr (hd b hb'))
      · exact apart_of_layout hrest hb' hc'

theorem Wf.eq_of_addr (h : Wf start s) {b c : Block} (hb : b ∈ s.blocks) (hc : c ∈ s.blocks) (ha : b.addr = c.addr) :
    b = c := by
  rcases apart_of_layout h.layout hb hc with h | h | h
  · exact h
  · unfold Block.fin BLOCK_HDR at h
    omega
  · unfold Block.fin BLOCK_HDR at h
    omega

/-- A block of a heap is shorter than every request that the condition excludes. -/
theorem Wf.size_lt (h : Wf start s) {b : Block} (hb : b ∈ s.blocks) : b.size + 31 < long63 := by
  obtain ⟨h0, h1, h2⟩ := h.inside b hb
  have := h.brk.2
  have := h.pos
  unfold Block.fin BLOCK_HDR long63 at *
  omega

/-! ### Sizes -/

/-- Below 2⁶³ the rounded size and its header wrap nowhere. -/
theorem alignUp_of_small (h : w + 31 < long63) :
    w ≤ alignUp w 8 ∧ alignUp w 8 + BLOCK_HDR < long63 ∧ alignUp w 8 % 8 = 0 := by
  unfold alignUp add64 word64 BLOCK_HDR long63 at *
  omega

/-- From there on rounding has wrapped, or the header does not fit a `long`. -/
theorem alignUp_of_large (h : ¬w + 31 < long63) (hw : w < word64) :
    alignUp w 8 < w ∨ long63 ≤ alignUp w 8 + BLOCK_HDR := by
  unfold alignUp add64 word64 BLOCK_HDR long63 at *
  omega

/-! ### What `malloc` does -/

/-- `sbrk` moves the break from where it is, or leaves everything but `heap_end` alone. -/
theorem sbrk_spec (h : Wf start s) (inc : Nat) : sbrk s inc grant =
    if add64 s.brk inc = 0 then ({ s with heapEnd := 0 }, some s.brk)
    else if grant ∧ add64 s.brk inc < long63 then
      ({ s with brk := add64 s.brk inc, heapEnd := add64 s.brk inc }, some s.brk)
    else ({ s with heapEnd := s.brk }, none) := by
  have hs : (if s.heapEnd = 0 then { s with heapEnd := s.brk } else s) = { s with heapEnd := s.brk } := by
    split
    · rfl
    · rename_i hne
      have htop := h.top.resolve_left hne
      cases s
      cases htop
      rfl
  unfold sbrk
  rw [hs]
  simp only [sysBrk]
  by_cases hz : add64 s.brk inc = 0
  · rw [if_pos hz, if_pos hz, hz]
  · rw [if_neg hz, if_neg hz]
    by_cases hg : grant = true ∧ add64 s.brk inc < long63
    · rw [if_pos hg, if_pos hg]
    · rw [if_neg hg, if_neg hg]

/-- **What `malloc` may do**: reuse the first free block that is long enough, get one from the break, or return NULL. -/
theorem malloc_cases (h : Wf start s) (w : Nat) (grant : Bool) :
    (∃ b ∈ s.blocks, b.free = true ∧ alignUp w 8 ≤ b.size ∧
      malloc s w grant = ({ s with blocks := setFree s.blocks b.addr false }, some (b.addr + BLOCK_HDR))) ∨
    (Refused s w grant ∧ malloc s w grant = ({ s with heapEnd := s.brk }, none)) ∨
    (¬Refused s w grant ∧ ∃ newEnd, newEnd = add64 s.brk (add64 (alignUp w 8) BLOCK_HDR) ∧
      (newEnd = 0 ∨ newEnd < long63) ∧
      malloc s w grant =
        (⟨if newEnd = 0 then s.brk else newEnd, newEnd, s.blocks ++ [⟨s.brk, alignUp w 8, false⟩], s.mem⟩,
          some (s.brk + BLOCK_HDR))) := by
  unfold malloc
  dsimp only
  cases hf : s.blocks.find? fun b => b.free && decide (alignUp w 8 ≤ b.size) with
  | some b =>
    have hp := List.find?_some hf
    simp only [Bool.and_eq_true, decide_eq_true_eq] at hp
    exact .inl ⟨b, List.mem_of_find?_eq_some hf, hp.1, hp.2, rfl⟩
  | none =>
    have hnone : ∀ b ∈ s.blocks, b.free = true → b.size < alignUp w 8 := fun b hb hfree => by
      have := List.find?_eq_none.1 hf b hb
      simpa [hfree] using this
    have hbrk : ¬s.brk = 0 := Nat.ne_of_gt (Nat.lt_of_lt_of_le h.pos h.brk.1)
    simp only
    rw [sbrk_spec h]
    generalize hn : add64 s.brk (add64 (alignUp w 8) BLOCK_HDR) = newEnd
    have hmoves : Moves s w grant ↔ newEnd = 0 ∨ (grant = true ∧ newEnd < long63) := by rw [← hn]; rfl
    by_cases hz : newEnd = 0
    · rw [if_pos hz]
      refine .inr (.inr ⟨fun hr => hr.2 (hmoves.2 (.inl hz)), newEnd, rfl, .inl hz, ?_⟩)
      simp only [if_neg hbrk, hz, if_true]
    · rw [if_neg hz]
      by_cases hg : grant = true ∧ newEnd < long63
      · rw [if_pos hg]
        refine .inr (.inr ⟨fun hr => hr.2 (hmoves.2 (.inr hg)), newEnd, rfl, .inr hg.2, ?_⟩)
        simp only [if_neg hbrk, if_neg hz]
      · rw [if_neg hg]
        exact .inr (.inl ⟨⟨hnone, fun hm => (hmoves.1 hm).elim hz hg⟩, rfl⟩)

theorem malloc_of_refused (h : Wf start s) (hr : Refused s w grant) :
    malloc s w grant = ({ s with heapEnd := s.brk }, none) := by
  rcases malloc_cases h w grant with ⟨b, hb, hfree, hsize, -⟩ | ⟨-, heq⟩ | ⟨hno, -⟩
  · exact absurd hsize (Nat.not_le_of_lt (hr.1 b hb hfree))
  · exact heq
  · exact absurd hr hno

/-- **`s'` has a new block `nb`**, apart from the blocks of `s` that are in use, which it keeps. -/
structure Fresh (start : Nat) (s s' : State) (nb : Block) : Prop where
  wf : Wf start s'
  mem : s'.mem = s.mem
  new : nb ∈ s'.blocks ∧ nb.free = false
  keep : ∀ b ∈ s.blocks, b.free = false → b ∈ s'.blocks ∧ (b.fin ≤ nb.addr ∨ nb.fin ≤ b.addr)

/-- A block that was free is taken. -/
theorem Wf.reuse (h : Wf start s) {b : Block} (hb : b ∈ s.blocks) (hfree : b.free = true) :
    Fresh start s { s with blocks := UserHeap.setFree s.blocks b.addr false } { b with free := false } := by
  refine ⟨h.setFree b.addr false h.top s.mem, rfl, ⟨mem_setFree_self hb, rfl⟩, fun c hc hused => ?_⟩
  have hne : c ≠ b := by
    rintro rfl
    rw [hfree] at hused
    cases hused
  exact ⟨mem_setFree_of_ne hc fun ha => hne (h.eq_of_addr hc hb ha), (apart_of_layout h.layout hc hb).resolve_left hne⟩

/-- A block is added at the break. -/
theorem Wf.grow (h : Wf start s) {size : Nat} (hsize : size % 8 = 0) (hlt : s.brk + BLOCK_HDR + size < long63) :
    Fresh start s ⟨s.brk + BLOCK_HDR + size, s.brk + BLOCK_HDR + size, s.blocks ++ [⟨s.brk, size, false⟩], s.mem⟩
      ⟨s.brk, size, false⟩ := by
  have hbrk := h.brk
  have hup : s.brk ≤ s.brk + BLOCK_HDR + size := by omega
  refine ⟨⟨h.pos, ⟨Nat.le_trans hbrk.1 hup, hlt⟩, .inr rfl, ?_, fun b hb => ?_⟩, rfl, ?_, fun b hb _ => ?_⟩
  · refine List.pairwise_append.2 ⟨h.layout, List.pairwise_singleton _ _, fun b hb c hc => ?_⟩
    rw [List.mem_singleton.1 hc]
    exact (h.inside b hb).2.1
  · rcases List.mem_append.1 hb with hb | hb
    · obtain ⟨h0, h1, h2⟩ := h.inside b hb
      exact ⟨h0, Nat.le_trans h1 hup, h2⟩
    · rw [List.mem_singleton.1 hb]
      exact ⟨hbrk.1, Nat.le_refl _, hsize⟩
  · exact ⟨List.mem_append_right _ (List.mem_singleton_self _), rfl⟩
  · exact ⟨List.mem_append_left _ hb, .inl (h.inside b hb).2.1⟩

/-- **A small request gets a block that is long enough, or NULL.** -/
theorem malloc_of_small (grant : Bool) (h : Wf start s) (hw : w + 31 < long63) :
    malloc s w grant = ({ s with heapEnd := s.brk }, none) ∧ Refused s w grant ∨
      ∃ s' nb, malloc s w grant = (s', some (nb.addr + BLOCK_HDR)) ∧ Fresh start s s' nb ∧ w ≤ nb.size := by
  obtain ⟨hle, hlt, hmod⟩ := alignUp_of_small hw
  rcases malloc_cases h w grant with ⟨b, hb, hfree, hsize, heq⟩ | ⟨hr, heq⟩ | ⟨-, newEnd, hnew, hend, heq⟩
  · exact .inr ⟨_, { b with free := false }, heq, h.reuse hb hfree, Nat.le_trans hle hsize⟩
  · exact .inl ⟨heq, hr⟩
  · have hbrk := h.brk
    have hpos := h.pos
    -- neither sum wraps
    have hsum : newEnd = s.brk + BLOCK_HDR + alignUp w 8 := by
      rw [hnew, add64_of_lt (a := alignUp w 8) (by unfold long63 word64 at *; omega), add64_of_lt (by unfold long63 word64 at *; omega)]
      omega
    have hne : newEnd ≠ 0 := by omega
    rw [if_neg hne, hsum] at heq
    exact .inr ⟨_, _, heq, h.grow hmod (hsum ▸ hend.resolve_left hne), hle⟩

/-- **A large request that is not refused gets a block that is too short or does not fit the heap.** -/
theorem malloc_of_large (h : Wf start s) (hw : ¬w + 31 < long63) (hlt : w < word64) (hr : ¬Refused s w grant) :
    ∃ s' p, malloc s w grant = (s', some p) ∧ ∀ b ∈ s'.blocks, b.addr + BLOCK_HDR = p → w ≤ b.size → s'.brk < p + b.size := by
  rcases malloc_cases h w grant with ⟨b, hb, hfree, hsize, heq⟩ | ⟨hr', -⟩ | ⟨-, newEnd, hnew, hend, heq⟩
  · refine ⟨_, _, heq, fun c hc ha hle => ?_⟩
    -- every block of the heap is shorter than the request
    obtain ⟨d, hd, -, hs, -⟩ := mem_setFree hc
    have := h.size_lt hd
    omega
  · exact absurd hr' hr
  · refine ⟨_, _, heq, fun c hc ha hle => ?_⟩
    have hbrk := h.brk
    have hpos := h.pos
    rcases List.mem_append.1 hc with hc | hc
    · have := h.size_lt hc
      omega
    · rw [List.mem_singleton.1 hc] at hle ⊢
      have hbig := (alignUp_of_large hw hlt).resolve_left (Nat.not_lt_of_le hle)
      have hbound : (if newEnd = 0 then s.brk else newEnd) < long63 := by
        split
        · exact hbrk.2
        · rename_i hne
          exact hend.resolve_left hne
      simp only
      omega

/-! ### Runs -/

/-- **What the program has is in blocks of the heap that are in use**, one for each pointer. -/
structure Inv (start : Nat) (h : Heap) : Prop where
  wf : Wf start h.toState
  live : ∀ p a, h.live p = some a → ∃ b ∈ h.blocks, b.addr + BLOCK_HDR = p ∧ b.free = false ∧ a.size ≤ b.size ∧
    ∀ i < a.size, h.mem (p + i) = a.data i

variable {h : Heap} {p n : Nat} {a : Alloc}

theorem Inv.law (hI : Inv start h) : HeapLaw start h := by
  intro p a hp
  obtain ⟨b, hb, rfl, hused, hle, hdata⟩ := hI.live p a hp
  obtain ⟨h0, h1, -⟩ := hI.wf.inside b hb
  refine ⟨⟨b, hb, rfl, hused, hle, h0, h1⟩, fun q a' hq hne => ?_, fun c hc => ?_, hdata⟩
  · obtain ⟨c, hc, rfl, -, hle', -⟩ := hI.live q a' hq
    rcases apart_of_layout hI.wf.layout hb hc with rfl | hbc | hcb
    · exact absurd rfl hne
    · unfold Block.fin at hbc
      omega
    · unfold Block.fin at hcb
      omega
  · rcases apart_of_layout hI.wf.layout hb hc with rfl | hbc | hcb
    · exact .inr (Nat.le_refl _)
    · unfold Block.fin at hbc
      omega
    · unfold Block.fin at hcb
      omega

theorem Inv.refused (hI : Inv start h) : Inv start ⟨{ h.toState with heapEnd := h.brk }, h.live⟩ :=
  ⟨⟨hI.wf.pos, hI.wf.brk, .inr rfl, hI.wf.layout, hI.wf.inside⟩, hI.live⟩

/-- **The program is given a new block**, whose bytes alone may have changed. -/
theorem Inv.give (hI : Inv start h) {s' : State} {nb : Block} (hf : Fresh start h.toState s' nb) {mem : Nat → UInt8}
    (hmem : ∀ x, x < nb.addr + BLOCK_HDR ∨ nb.fin ≤ x → mem x = h.mem x) (ha : a.size ≤ nb.size)
    (hdata : ∀ i < a.size, mem (nb.addr + BLOCK_HDR + i) = a.data i) :
    Inv start ⟨{ s' with mem := mem }, Function.update h.live (nb.addr + BLOCK_HDR) (some a)⟩ := by
  refine ⟨⟨hf.wf.pos, hf.wf.brk, hf.wf.top, hf.wf.layout, hf.wf.inside⟩, fun q a' hq => ?_⟩
  change Function.update h.live _ _ q = _ at hq
  by_cases hqn : q = nb.addr + BLOCK_HDR
  · rw [hqn, Function.update_self] at hq
    cases hq
    rw [hqn]
    exact ⟨nb, hf.new.1, rfl, hf.new.2, ha, hdata⟩
  · rw [Function.update_of_ne hqn] at hq
    obtain ⟨b, hb, rfl, hused, hle, hold⟩ := hI.live q a' hq
    obtain ⟨hkeep, hapart⟩ := hf.keep b hb hused
    refine ⟨b, hkeep, rfl, hused, hle, fun i hi => (hmem _ ?_).trans (hold i hi)⟩
    unfold Block.fin at *
    omega

/-- **A block is given back.** -/
theorem Inv.free (hI : Inv start h) (hp : h.live p = some a) :
    Inv start ⟨UserHeap.free h.toState p, Function.update h.live p none⟩ := by
  obtain ⟨b, hb, rfl, -⟩ := hI.live p a hp
  have hsub : b.addr + BLOCK_HDR - BLOCK_HDR = b.addr := Nat.add_sub_cancel _ _
  unfold UserHeap.free
  rw [hsub]
  refine ⟨hI.wf.setFree b.addr true hI.wf.top h.mem, fun q a' hq => ?_⟩
  change Function.update h.live _ _ q = _ at hq
  by_cases hqp : q = b.addr + BLOCK_HDR
  · rw [hqp, Function.update_self] at hq
    cases hq
  · rw [Function.update_of_ne hqp] at hq
    obtain ⟨c, hc, rfl, hused, hle, hold⟩ := hI.live q a' hq
    exact ⟨c, mem_setFree_of_ne hc fun ha => hqp (by rw [ha]), rfl, hused, hle, hold⟩

theorem Inv.store (hI : Inv start h) (hp : h.live p = some a) {i : Nat} (hi : i < a.size) (v : UInt8) :
    Inv start ⟨{ h.toState with mem := Function.update h.mem (p + i) v },
      Function.update h.live p (some { a with data := Function.update a.data i v })⟩ := by
  refine ⟨⟨hI.wf.pos, hI.wf.brk, hI.wf.top, hI.wf.layout, hI.wf.inside⟩, fun q a' hq => ?_⟩
  change Function.update h.live _ _ q = _ at hq
  by_cases hqp : q = p
  · rw [hqp, Function.update_self] at hq
    cases hq
    rw [hqp]
    obtain ⟨b, hb, hbp, hused, hle, hold⟩ := hI.live p a hp
    refine ⟨b, hb, hbp, hused, hle, fun j hj => ?_⟩
    show Function.update h.mem (p + i) v (p + j) = Function.update a.data i v j
    by_cases hji : j = i
    · rw [hji, Function.update_self, Function.update_self]
    · rw [Function.update_of_ne hji, Function.update_of_ne (by omega)]
      exact hold j hj
  · rw [Function.update_of_ne hqp] at hq
    obtain ⟨c, hc, hcq, hused, hle, hold⟩ := hI.live q a' hq
    refine ⟨c, hc, hcq, hused, hle, fun j hj => ?_⟩
    have hne : q + j ≠ p + i := by
      have := (hI.law q a' hq).2.1 p a hp (Ne.symm hqp)
      omega
    exact (Function.update_of_ne hne _ _).trans (hold j hj)

/-- The header that `realloc` looks at is that of the block. -/
theorem Inv.find (hI : Inv start h) (hp : h.live p = some a) : ∃ b ∈ h.blocks, b.addr + BLOCK_HDR = p ∧ b.free = false ∧
    a.size ≤ b.size ∧ (∀ i < a.size, h.mem (p + i) = a.data i) ∧ h.blocks.find? (fun c => c.addr = p - BLOCK_HDR) = some b := by
  obtain ⟨b, hb, rfl, hused, hle, hold⟩ := hI.live p a hp
  refine ⟨b, hb, rfl, hused, hle, hold, ?_⟩
  rw [Nat.add_sub_cancel]
  cases hf : h.blocks.find? fun c => c.addr = b.addr with
  | none =>
    have := List.find?_eq_none.1 hf b hb
    simp at this
  | some c =>
    have hc := List.find?_some hf
    simp only [decide_eq_true_eq] at hc
    rw [hI.wf.eq_of_addr (List.mem_of_find?_eq_some hf) hb hc]

/-- `malloc` under the condition: NULL, or a new block that is long enough. -/
theorem malloc_of_ok (grant : Bool) (h : Wf start s) (hok : w + 31 < long63 ∨ Refused s w grant) :
    malloc s w grant = ({ s with heapEnd := s.brk }, none) ∨
      ∃ s' nb, malloc s w grant = (s', some (nb.addr + BLOCK_HDR)) ∧ Fresh start s s' nb ∧ w ≤ nb.size := by
  rcases hok with hw | hr
  · rcases malloc_of_small grant h hw with ⟨heq, -⟩ | hnew
    · exact .inl heq
    · exact .inr hnew
  · exact .inl (malloc_of_refused h hr)

theorem Inv.malloc (hI : Inv start h) (hok : n + 31 < long63 ∨ Refused h.toState n grant) :
    Inv start ⟨(UserHeap.malloc h.toState n grant).1, UserHeap.give h.live (UserHeap.malloc h.toState n grant).2
      fun p => ⟨n, fun i => (UserHeap.malloc h.toState n grant).1.mem (p + i)⟩⟩ := by
  rcases malloc_of_ok grant hI.wf hok with heq | ⟨s', nb, heq, hf, hle⟩
  · rw [heq]
    exact hI.refused
  · rw [heq]
    exact hI.give hf (fun x _ => congrFun hf.mem x) hle fun _ _ => rfl

theorem mod_of_small {m : Nat} (h : m + 31 < long63) : m % word64 = m := Nat.mod_eq_of_lt (by unfold long63 word64 at *; omega)

theorem Inv.calloc (hI : Inv start h) {m : Nat} (hok : n * m + 31 < long63 ∨ Refused h.toState (n * m % word64) grant) :
    Inv start ⟨(UserHeap.calloc h.toState n m grant).1,
      UserHeap.give h.live (UserHeap.calloc h.toState n m grant).2 fun _ => ⟨n * m, fun _ => 0⟩⟩ := by
  unfold UserHeap.calloc
  rcases hok with hw | hr
  · rw [mod_of_small hw]
    rcases malloc_of_ok grant hI.wf (.inl hw) with heq | ⟨s', nb, heq, hf, hle⟩
    · rw [heq]
      exact hI.refused
    · rw [heq]
      refine hI.give hf (fun x hx => ?_) hle fun i hi => if_pos ⟨Nat.le_add_right _ _, Nat.add_lt_add_left hi _⟩
      have hout : ¬(nb.addr + BLOCK_HDR ≤ x ∧ x < nb.addr + BLOCK_HDR + n * m) := by
        unfold Block.fin at hx
        omega
      rw [memset, if_neg hout, hf.mem]
  · rw [malloc_of_refused hI.wf hr]
    exact hI.refused

/-- A block that `realloc` moves: the new one holds what the old one held, and the old one is free. -/
theorem Inv.move (hI : Inv start h) (hp : h.live p = some a) {b : Block} (hb : b ∈ h.blocks) (hbp : b.addr + BLOCK_HDR = p)
    (hused : b.free = false) (hab : a.size ≤ b.size) (hold : ∀ i < a.size, h.mem (p + i) = a.data i) {s' : State} {nb : Block}
    (hf : Fresh start h.toState s' nb) (hlong : b.size ≤ nb.size) (hn : n ≤ nb.size) :
    Inv start ⟨UserHeap.free { s' with mem := memcpy s'.mem (nb.addr + BLOCK_HDR) p b.size } p,
      Function.update (Function.update h.live p none) (nb.addr + BLOCK_HDR)
        (some ⟨n, fun i => if i < min a.size n then a.data i else memcpy s'.mem (nb.addr + BLOCK_HDR) p b.size (nb.addr + BLOCK_HDR + i)⟩)⟩ := by
  have hapart := (hf.keep b hb hused).2
  have hne : p ≠ nb.addr + BLOCK_HDR := by
    unfold Block.fin BLOCK_HDR at *
    omega
  rw [Function.update_comm hne]
  refine Inv.free (a := a) (h := ⟨_, Function.update h.live _ _⟩) (hI.give hf (fun x hx => ?_) hn fun i hi => ?_) ?_
  · have hout : ¬(nb.addr + BLOCK_HDR ≤ x ∧ x < nb.addr + BLOCK_HDR + b.size) := by
      unfold Block.fin at hx
      omega
    rw [memcpy, if_neg hout, hf.mem]
  · simp only
    split
    · rename_i hmin
      have hin : nb.addr + BLOCK_HDR ≤ nb.addr + BLOCK_HDR + i ∧ nb.addr + BLOCK_HDR + i < nb.addr + BLOCK_HDR + b.size := by omega
      rw [memcpy, if_pos hin, hf.mem, Nat.add_sub_cancel_left]
      exact hold i (by omega)
    · rfl
  · exact (Function.update_of_ne hne _ _).trans hp

/-- **A step that meets the condition keeps the invariant.** -/
theorem Inv.step (hI : Inv start h) {c : Call} {h' : Heap} (hs : h.call c = some h') (hok : StepOk h c) : Inv start h' := by
  cases c with
  | malloc n grant =>
    cases hs
    exact hI.malloc hok
  | calloc n m grant =>
    cases hs
    exact hI.calloc hok
  | realloc ptr n grant =>
    cases ptr with
    | none =>
      cases hs
      exact hI.malloc hok
    | some p =>
      unfold Heap.call at hs
      cases hp : h.live p with
      | none =>
        simp only [hp] at hs
        cases hs
      | some a =>
        obtain ⟨b, hb, hbp, hused, hab, hold, hfind⟩ := hI.find hp
        simp only [hp] at hs
        unfold realloc at hs
        rw [hfind] at hs
        simp only at hs
        by_cases hle : n.toNat ≤ b.size
        · -- the block is long enough and stays where it is
          rw [if_pos hle] at hs
          cases hs
          refine ⟨hI.wf, fun q a' hq => ?_⟩
          change Function.update (Function.update h.live p none) p _ q = _ at hq
          rw [Function.update_idem] at hq
          by_cases hqp : q = p
          · rw [hqp, Function.update_self] at hq
            cases hq
            rw [hqp]
            refine ⟨b, hb, hbp, hused, hle, fun i hi => ?_⟩
            show h.mem (p + i) = if i < min a.size n.toNat then a.data i else h.mem (p + i)
            split
            · exact hold i (by omega)
            · rfl
          · rw [Function.update_of_ne hqp] at hq
            exact hI.live q a' hq
        · rw [if_neg hle] at hs
          rcases malloc_of_ok grant hI.wf hok with heq | ⟨s', nb, heq, hf, hlong⟩
          · rw [heq] at hs
            cases hs
            exact hI.refused
          · rw [heq] at hs
            cases hs
            exact hI.move hp hb hbp hused hab hold hf (by omega) hlong
  | free ptr =>
    cases ptr with
    | none =>
      cases hs
      exact hI
    | some p =>
      unfold Heap.call at hs
      cases hp : h.live p with
      | none =>
        simp only [hp] at hs
        cases hs
      | some a =>
        simp only [hp] at hs
        cases hs
        exact hI.free hp
  | store p i v =>
    unfold Heap.call at hs
    cases hp : h.live p with
    | none =>
      simp only [hp] at hs
      cases hs
    | some a =>
      simp only [hp] at hs
      by_cases hi : i < a.size
      · rw [if_pos hi] at hs
        cases hs
        exact hI.store hp hi v
      · rw [if_neg hi] at hs
        cases hs

/-- What the law says of a block that the last call returned. -/
theorem HeapLaw.block {live : Nat → Option Alloc} {s' : State} (hl : HeapLaw start ⟨s', Function.update live p (some a)⟩) :
    ∃ b ∈ s'.blocks, b.addr + BLOCK_HDR = p ∧ a.size ≤ b.size ∧ p + b.size ≤ s'.brk := by
  obtain ⟨⟨b, hb, hbp, -, hle, -, hin⟩, -⟩ := hl p a (Function.update_self _ _ _)
  exact ⟨b, hb, hbp, hle, hin⟩

/-- Neither `malloc` of a large request nor what is done to the bytes and flags behind it keeps the law. -/
theorem not_law_of_large (h : Wf start s) (hw : ¬w + 31 < long63) (hlt : w < word64) (hr : ¬Refused s w grant) :
    ∃ s' p, malloc s w grant = (s', some p) ∧
      ∀ (live : Nat → Option Alloc) (a : Alloc) (t : State), w ≤ a.size → t.brk = s'.brk →
        (∀ b ∈ t.blocks, ∃ c ∈ s'.blocks, b.addr = c.addr ∧ b.size = c.size) →
        ¬HeapLaw start ⟨t, Function.update live p (some a)⟩ := by
  obtain ⟨s', p, heq, hbad⟩ := malloc_of_large h hw hlt hr
  refine ⟨s', p, heq, fun live a t hle hbrk hblocks hl => ?_⟩
  obtain ⟨b, hb, hbp, hab, hin⟩ := hl.block
  obtain ⟨c, hc, haddr, hsize⟩ := hblocks b hb
  have := hbad c hc (haddr ▸ hbp) (by omega)
  omega

/-- **A step that does not meet the condition breaks the law.** -/
theorem stepOk_of_law (hI : Inv start h) {c : Call} {h' : Heap} (hs : h.call c = some h') (hl : HeapLaw start h') :
    StepOk h c := by
  have hmalloc : ∀ (n : UInt64) (grant : Bool),
      HeapLaw start ⟨(malloc h.toState n.toNat grant).1, give h.live (malloc h.toState n.toNat grant).2
        fun p => ⟨n.toNat, fun i => (malloc h.toState n.toNat grant).1.mem (p + i)⟩⟩ →
      n.toNat + 31 < long63 ∨ Refused h.toState n.toNat grant := fun n grant hl => by
    refine or_iff_not_imp_left.2 fun hw => Classical.byContradiction fun hr => ?_
    obtain ⟨s', p, heq, hno⟩ := not_law_of_large hI.wf hw n.toNat_lt hr
    rw [heq] at hl
    exact hno _ _ _ (Nat.le_refl _) rfl (fun b hb => ⟨b, hb, rfl, rfl⟩) hl
  cases c with
  | malloc n grant =>
    cases hs
    exact hmalloc n grant hl
  | calloc n m grant =>
    cases hs
    refine or_iff_not_imp_left.2 fun hw => Classical.byContradiction fun hr => ?_
    have hlt : n.toNat * m.toNat % word64 < word64 := Nat.mod_lt _ (by decide)
    have hmod : n.toNat * m.toNat % word64 ≤ n.toNat * m.toNat := Nat.mod_le _ _
    by_cases hsmall : n.toNat * m.toNat % word64 + 31 < long63
    · -- the product wrapped: the block is long enough for what is left of it
      rcases malloc_of_small grant hI.wf hsmall with ⟨-, hr'⟩ | ⟨s', nb, heq, hf, -⟩
      · exact hr hr'
      · rw [heq] at hl
        obtain ⟨b, hb, -, hle, -⟩ := hl.block
        have := hf.wf.size_lt hb
        simp only at hle
        omega
    · obtain ⟨s', p, heq, hno⟩ := not_law_of_large hI.wf hsmall hlt hr
      rw [heq] at hl
      exact hno h.live ⟨n.toNat * m.toNat, fun _ => 0⟩ { s' with mem := memset s'.mem p 0 (n.toNat * m.toNat % word64) } hmod rfl
        (fun b hb => ⟨b, hb, rfl, rfl⟩) hl
  | realloc ptr n grant =>
    cases ptr with
    | none =>
      cases hs
      exact hmalloc n grant hl
    | some p =>
      refine or_iff_not_imp_left.2 fun hw => Classical.byContradiction fun hr => ?_
      unfold Heap.call at hs
      cases hp : h.live p with
      | none =>
        simp only [hp] at hs
        cases hs
      | some a =>
        obtain ⟨b, hb, -, -, -, -, hfind⟩ := hI.find hp
        obtain ⟨s', q, heq, hno⟩ := not_law_of_large hI.wf hw n.toNat_lt hr
        have hle : ¬n.toNat ≤ b.size := by
          have := hI.wf.size_lt hb
          omega
        simp only [hp] at hs
        unfold realloc at hs
        rw [hfind] at hs
        simp only [if_neg hle] at hs
        rw [heq] at hs
        cases hs
        refine hno _ _ _ (Nat.le_refl _) ?_ (fun c hc => ?_) hl
        · rfl
        · obtain ⟨d, hd, ha, hsz, -⟩ := mem_setFree hc
          exact ⟨d, hd, ha, hsz⟩
  | free ptr => trivial
  | store p i v => trivial

/-- **The heap of the C library keeps its word in exactly the runs that never get memory for a request of 2⁶³ bytes or more**,
rounding and header included. -/
theorem heapLaw_iff_runOk {h₀ h : Heap} {l : List Call} (h0 : (heapMachine start).init h₀)
    (hrun : (heapMachine start).run h₀ l = some h) :
    (heapMachine start).Always (HeapLaw start) h₀ l ↔ (heapMachine start).RunOk StepOk h₀ l h := by
  refine (heapMachine start).always_iff_runOk (I := Inv start) (fun _ hI => hI.law) (fun _ _ _ hI hs hok => hI.step hs hok)
    (fun _ _ _ hI hs hl => stepOk_of_law hI hs hl) l h₀ h ?_ hrun
  obtain ⟨hpos, hlt, mem, rfl⟩ := h0
  exact ⟨⟨hpos, ⟨Nat.le_refl _, hlt⟩, .inl rfl, List.Pairwise.nil, fun b hb => by cases hb⟩, fun p a hp => by cases hp⟩

instance (s : State) (w : Nat) (grant : Bool) : Decidable (Moves s w grant) := instDecidableOr

instance (s : State) (w : Nat) (grant : Bool) : Decidable (Refused s w grant) := instDecidableAnd

instance (h : Heap) (c : Call) : Decidable (StepOk h c) :=
  match c with
  | .malloc _ _ => instDecidableOr
  | .calloc _ _ _ => instDecidableOr
  | .realloc _ _ _ => instDecidableOr
  | .free _ => instDecidableTrue
  | .store _ _ _ => instDecidableTrue

/-- A program with its break at 4096: a block that is filled and moved, one that is taken again, a product that wraps. -/
def program : List Call :=
  [.malloc 10 true, .store 4120 3 7, .calloc 2 4 true, .realloc (some 4120) 20 true, .malloc 5 false,
    .calloc 4294967296 4294967296 false]

theorem heapLaw_program : ∃ h, (heapMachine 4096).run ⟨⟨4096, 0, [], fun _ => 0⟩, fun _ => none⟩ program = some h ∧
    h.blocks = [⟨4096, 16, false⟩, ⟨4136, 8, false⟩, ⟨4168, 24, false⟩] ∧ h.mem 4195 = 7 ∧
    (heapMachine 4096).Always (HeapLaw 4096) ⟨⟨4096, 0, [], fun _ => 0⟩, fun _ => none⟩ program := by
  refine ⟨_, rfl, by decide +kernel, by decide +kernel, ?_⟩
  have h0 : (heapMachine 4096).init ⟨⟨4096, 0, [], fun _ => 0⟩, fun _ => none⟩ := ⟨by decide, by decide, _, rfl⟩
  exact (heapLaw_iff_runOk h0 rfl).2 ((heapMachine 4096).runOk_of_check rfl)

/-- `malloc(SIZE_MAX)` on a fresh heap: the size is rounded up to 0, and the pointer is to a block of no bytes. -/
theorem not_heapLaw : ∃ h₀ h, (heapMachine 4096).init h₀ ∧
    (heapMachine 4096).run h₀ [.malloc 18446744073709551615 true] = some h ∧
    ¬(heapMachine 4096).Always (HeapLaw 4096) h₀ [.malloc 18446744073709551615 true] := by
  refine ⟨⟨⟨4096, 0, [], fun _ => 0⟩, fun _ => none⟩, _, ⟨by decide, by decide, _, rfl⟩, rfl, fun h => ?_⟩
  obtain ⟨b, hb, -, hle, -⟩ := (h.2 _ rfl).block
  rw [List.mem_singleton.1 hb] at hle
  exact absurd hle (by decide)

end UserHeap
end Pico
