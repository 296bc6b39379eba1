import Picomimi.SlabFrame
/-!
# SlabCalls — what a caller of `kmalloc` and `kfree` may rely on

An answer is honest when the sums of the call do not wrap (`honest_iff`); and a second `kfree` of a pointer changes
nothing as long as every block was carved honestly (`freedTwice_of_run`).  Here clients ask for any number of bytes.
-/
namespace Pico
namespace Slab

open Lib Lib.Tiling

variable {s s' t u : State} {bs : List SlabHdr} {h h' : Heap} {m : Mem} {b : SlabHdr} {c : Client} {op : Op}
  {off p ptr bump fuel size flags : Nat}

/-- One step of clients that ask for any number of bytes. -/
def wideStep (s : State) : Op → Option State
  | .kmalloc size flags =>
    if size < word64 then
      match kmalloc s.h size flags with
      | (none, h) => some { s with h := h }
      | (some ptr, h) => some ⟨h, ⟨ptr, size⟩ :: s.live⟩
    else none
  | .kfree ptr => step s (.kfree ptr)
  | .write ptr i v => step s (.write ptr i v)

def wide : Machine State Op where
  init := machine.init
  step := wideStep

/-! ## The header walk -/

/-- The headers from `off` on, as the search loop of `kmalloc` meets them. -/
def headersFrom (m : Mem) (bump : Nat) : Nat → Nat → List SlabHdr
  | 0, _ => []
  | fuel + 1, off =>
    if off + slabHdrSz ≤ bump then
      let hdr := hdrAt m off
      hdr :: headersFrom m bump fuel (off + slabHdrSz + hdr.size)
    else []

def Heap.headers (h : Heap) : List SlabHdr := headersFrom h.heap h.heapBump (h.heapBump + 1) 0

/-- The block is free and has room for `size` bytes. -/
def SlabHdr.Fits (b : SlabHdr) (size : Nat) : Prop := b.magic = slabMagicFree ∧ size ≤ b.size

instance (b : SlabHdr) (size : Nat) : Decidable (b.Fits size) := inferInstanceAs (Decidable (_ ∧ _))

theorem firstFit_eq_none : ∀ {fuel off : Nat},
    firstFit m bump size fuel off = none ↔ ∀ b ∈ headersFrom m bump fuel off, ¬b.Fits size
  | 0, off => by simp [firstFit, headersFrom]
  | fuel + 1, off => by
    unfold firstFit headersFrom SlabHdr.Fits
    by_cases hoff : off + slabHdrSz ≤ bump
    · rw [if_pos hoff, if_pos hoff]
      simp only [List.forall_mem_cons]
      by_cases hfit : (hdrAt m off).magic = slabMagicFree ∧ size ≤ (hdrAt m off).size
      · rw [if_pos hfit]
        exact iff_of_false (fun h => by cases h) (fun h => h.1 hfit)
      · rw [if_neg hfit, firstFit_eq_none]
        exact (and_iff_right hfit).symm
    · rw [if_neg hoff, if_neg hoff]
      simp

theorem headersFrom_eq : ∀ {fuel off : Nat} {bs : List SlabHdr}, Walk m off bs bump → bump < off + fuel →
    headersFrom m bump fuel off = bs
  | 0, off, bs, ht, hfuel => by
    have := Tiles.fin_eq ht
    omega
  | fuel + 1, off, [], ht, hfuel => by
    have : off = bump := ht
    rw [headersFrom, if_neg (by unfold slabHdrSz; omega)]
  | fuel + 1, off, b :: bs, ht, hfuel => by
    have hfin := Tiles.fin_eq ht
    simp only [span_cons] at hfin
    obtain ⟨hb, ht'⟩ := ht
    have hH : 0 < slabHdrSz := by decide
    rw [headersFrom, if_pos (by omega), hb]
    exact congrArg _ (headersFrom_eq ht' (by omega))

/-- **The walk meets the blocks of the heap.** -/
theorem Inv.headers_eq (hi : Inv s bs) : s.h.headers = bs := headersFrom_eq hi.walk (by omega)

/-- The heap after `slab_init` over zeroed memory, with no pointer handed out. -/
def bootHeap : State := ⟨slabInit ⟨fun _ => 0, 0, 0, 0⟩, []⟩

/-! ## Sizes that wrap -/

/-- **An honest answer**: `NULL` and nothing changed, or a block of the size asked for inside the heap. -/
def Honest (h : Heap) (size flags : Nat) : Prop :=
  (kmalloc h size flags).2.heapBump ≤ heapSize ∧
  match kmalloc h size flags with
  | (none, h') => h' = h
  | (some ptr, h') => slabHdrSz ≤ ptr ∧ size ≤ payloadLen h' ptr ∧ ptr + payloadLen h' ptr ≤ heapSize ∧
      h.heapBump ≤ h'.heapBump

/-- The size can be rounded and added up without wrapping; or rounding wraps to 0, and there is neither a free block nor
room for a header. -/
def Sums (h : Heap) (size : Nat) : Prop :=
  size = 0 ∨ (size + 15 < word64 ∧ h.heapBump + (slabHdrSz + alignUp size 16) < word64) ∨
    (word64 ≤ size + 15 ∧ heapSize < h.heapBump + slabHdrSz ∧
      (h.heapFreed = 0 ∨ ∀ b ∈ h.headers, b.magic ≠ slabMagicFree))

@[simp] theorem zeroPayload_heapBump : (zeroPayload h flags ptr size).heapBump = h.heapBump := by
  unfold zeroPayload
  split <;> rfl

@[simp] theorem takeBlock_heapBump : (takeBlock h off size).heapBump = h.heapBump := by
  unfold takeBlock
  dsimp only
  split <;> rfl

theorem slabBump_heapBump (hb : slabBump h size = (some ptr, h')) :
    h'.heapBump = add64 h.heapBump (add64 slabHdrSz size) ∧ h'.heapBump ≤ heapSize := by
  simp only [slabBump] at hb
  split at hb
  · cases hb
  · rename_i hle
    cases hb
    exact ⟨rfl, Nat.le_of_not_lt hle⟩

/-- **A block of the rounded size** is honest when rounding lost nothing. -/
theorem Inv.honest_of_block (hi : Inv s bs) (hround : size + 15 < word64) (hsize : size ≤ heapSize) :
    Honest s.h size flags := by
  obtain ⟨hle, hlt⟩ := alignUp_bounds (x := size) (show 0 < 16 by decide) hround
  have hmax : heapSize + 16 < word64 - heapSize - slabHdrSz := by decide
  have hmono : s.h.heapBump ≤ (Slab.kmalloc s.h size flags).2.heapBump := by
    rcases kmalloc_cases s.h size flags with ⟨-, h⟩ | ⟨off, -, -, h⟩ | ⟨-, ⟨-, h⟩ | ⟨ptr, h', hb, h⟩⟩
    · simp [h]
    · simp [h]
    · simp [h]
    · have hbump := hi.bump_le
      have hw : heapSize + (slabHdrSz + (heapSize + 16)) < word64 := by decide
      rw [h, zeroPayload_heapBump, (slabBump_heapBump hb).1, add64_of_lt (a := slabHdrSz) (by omega),
        add64_of_lt (by omega)]
      exact Nat.le_add_right _ _
  rcases hi.kmalloc hsize flags with hk | ⟨ptr, h', bs', hk, hi', -⟩
  · unfold Honest
    rw [hk]
    exact ⟨hi.bump_le, rfl⟩
  · have hwf := hi'.payloadWf List.mem_cons_self
    have hbump := hi'.bump_le
    obtain ⟨q, b, -, hptr, -⟩ := hi'.holds _ List.mem_cons_self
    have hhdr : slabHdrSz ≤ ptr := Nat.le_trans (Nat.le_add_left _ q) (Nat.le_of_eq hptr.symm)
    rw [hk] at hmono
    unfold Honest
    rw [hk]
    exact ⟨hbump, hhdr, hwf.long, Nat.le_trans hwf.below hbump, hmono⟩

theorem honest_of_none (hk : kmalloc h size flags = (none, h)) (hbump : h.heapBump ≤ heapSize) : Honest h size flags := by
  unfold Honest
  rw [hk]
  exact ⟨hbump, rfl⟩

/-- **A block behind a sum that wraps** moves `heap_bump` back. -/
theorem Inv.not_honest_of_sum (hi : Inv s bs) (hround : size + 15 < word64) (h0 : size ≠ 0)
    (hsum : word64 ≤ s.h.heapBump + (slabHdrSz + alignUp size 16)) : ¬Honest s.h size flags := by
  have hbump := hi.bump_le
  have hw : heapSize + slabHdrSz + heapSize < word64 := by decide
  obtain ⟨k, hk⟩ : 16 ∣ alignUp size 16 := dvd_alignUp size 16
  have hlt : alignUp size 16 ≤ size + 15 := by
    unfold alignUp
    rw [add64_of_lt hround]
    exact Nat.div_mul_le_self _ _
  -- a multiple of 16 below 2 ^ 64 leaves room for a header
  have hhdr : slabHdrSz + alignUp size 16 < word64 := by
    unfold word64 at *
    unfold slabHdrSz
    omega
  have hback : add64 s.h.heapBump (add64 slabHdrSz (alignUp size 16)) < s.h.heapBump := by
    rw [add64_of_lt hhdr, add64, Nat.mod_eq_sub_mod hsum, Nat.mod_eq_of_lt (by omega)]
    omega
  rcases kmalloc_cases s.h size flags with ⟨h, -⟩ | ⟨off, -, hfit, -⟩ | ⟨-, ⟨hb, -⟩ | ⟨ptr, h', hb, hk⟩⟩
  · exact absurd h h0
  · obtain ⟨q, b, hq, -, -, hlen⟩ := firstFit_some hi.walk hfit
    have hspan := hi.span_eq
    have hle := hq.le_span
    omega
  · simp only [slabBump] at hb
    rw [if_neg (by omega)] at hb
    cases hb
  · unfold Honest
    rw [hk]
    simp only [zeroPayload_heapBump, (slabBump_heapBump hb).1]
    omega

/-- **Rounding that wraps to 0** gets a block of no bytes, if any. -/
theorem Inv.honest_iff_of_wrap (hi : Inv s bs) (hsize : size < word64) (hround : word64 ≤ size + 15) :
    Honest s.h size flags ↔ heapSize < s.h.heapBump + slabHdrSz ∧
      (s.h.heapFreed = 0 ∨ ∀ b ∈ s.h.headers, b.magic ≠ slabMagicFree) := by
  have hbump := hi.bump_le
  have hw : heapSize + slabHdrSz + heapSize + 15 < word64 := by decide
  have hzero : alignUp size 16 = 0 := by
    unfold alignUp
    rw [show 16 - 1 = 15 from rfl, add64, Nat.mod_eq_sub_mod hround, Nat.mod_eq_of_lt (by omega)]
    omega
  have hfits : firstFit s.h.heap s.h.heapBump 0 (s.h.heapBump + 1) 0 = none ↔
      ∀ b ∈ s.h.headers, b.magic ≠ slabMagicFree := by
    rw [firstFit_eq_none]
    exact forall₂_congr fun b _ => by simp [SlabHdr.Fits]
  have htotal : add64 s.h.heapBump (add64 slabHdrSz 0) = s.h.heapBump + slabHdrSz := by
    rw [add64_of_lt (a := slabHdrSz) (by omega), add64_of_lt (by omega), Nat.add_zero]
  have hsmall : alignUp size 16 < word64 - heapSize - slabHdrSz := by
    rw [hzero]
    decide
  have hblock := hi.kmalloc_block hsmall (Nat.zero_le _) flags
  have hcases := kmalloc_cases s.h size flags
  rw [hzero] at hcases
  -- a block handed out lies in the heap, which is smaller than the request
  have hshort : ∀ ptr h', Slab.kmalloc s.h size flags = (some ptr, h') → ¬Honest s.h size flags := by
    rintro ptr h' hk ⟨-, hon⟩
    rw [hk] at hon
    rcases hblock with hn | ⟨ptr', g, bs', hs, hi', -⟩
    · rw [hk] at hn
      cases hn
    · rw [hk] at hs
      cases hs
      have hwf := hi'.payloadWf List.mem_cons_self
      have hbelow := hwf.below
      have hbump' := hi'.bump_le
      have hlong := hon.2.1
      dsimp only at hbelow hbump'
      omega
  rcases hcases with ⟨h, -⟩ | ⟨off, hfreed, hfit, hk⟩ | ⟨hsearch, ⟨hb, hk⟩ | ⟨ptr, h', hb, hk⟩⟩
  · omega
  · refine iff_of_false (hshort _ _ hk) ?_
    rintro ⟨-, hno | hno⟩
    · omega
    · rw [hfits.2 hno] at hfit
      cases hfit
  · rw [hfits] at hsearch
    refine iff_of_true (honest_of_none hk hbump) ⟨?_, hsearch⟩
    simp only [slabBump, htotal] at hb
    by_contra hroom
    rw [if_neg hroom] at hb
    cases hb
  · refine iff_of_false (hshort _ _ hk) ?_
    rintro ⟨hfull, -⟩
    simp only [slabBump, htotal] at hb
    rw [if_pos hfull] at hb
    cases hb

/-- **When `kmalloc` answers honestly.** -/
theorem Inv.honest_iff (hi : Inv s bs) (hsize : size < word64) : Honest s.h size flags ↔ Sums s.h size := by
  unfold Sums
  by_cases h0 : size = 0
  · exact iff_of_true (honest_of_none (by rw [Slab.kmalloc, if_pos h0]) hi.bump_le) (.inl h0)
  by_cases hround : size + 15 < word64
  · by_cases hsum : s.h.heapBump + (slabHdrSz + alignUp size 16) < word64
    · refine iff_of_true ?_ (.inr (.inl ⟨hround, hsum⟩))
      by_cases hle : size ≤ heapSize
      · exact hi.honest_of_block hround hle
      · exact honest_of_none (hi.kmalloc_large (Nat.lt_of_not_le hle) hround hsum flags) hi.bump_le
    · refine iff_of_false (hi.not_honest_of_sum hround h0 (Nat.le_of_not_lt hsum)) ?_
      rintro (h | ⟨-, h⟩ | ⟨h, -⟩)
      · exact h0 h
      · exact hsum h
      · omega
  · rw [hi.honest_iff_of_wrap hsize (Nat.le_of_not_lt hround)]
    simp [h0, hround, Nat.le_of_not_lt hround]

/-! ## Runs -/

/-- The request of a step is answered honestly. -/
def HonestStep (s : State) : Op → Prop
  | .kmalloc size flags => size < word64 → Honest s.h size flags
  | _ => True

/-- The sums of the step do not wrap. -/
def SumsStep (s : State) : Op → Prop
  | .kmalloc size _ => size < word64 → Sums s.h size
  | _ => True

/-- **An honest answer keeps the block list.** -/
theorem Inv.kmalloc_of_honest (hi : Inv s bs) (hon : Honest s.h size flags) :
    Slab.kmalloc s.h size flags = (none, s.h) ∨
      ∃ ptr h' bs', Slab.kmalloc s.h size flags = (some ptr, h') ∧ Inv ⟨h', ⟨ptr, size⟩ :: s.live⟩ bs' := by
  by_cases hsize : size ≤ heapSize
  · rcases hi.kmalloc hsize flags with hk | ⟨ptr, h', bs', hk, hi', -⟩
    · exact .inl hk
    · exact .inr ⟨ptr, h', bs', hk, hi'⟩
  obtain ⟨-, hon⟩ := hon
  rcases hk : Slab.kmalloc s.h size flags with ⟨_ | ptr, h'⟩
  · rw [hk] at hon
    exact .inl (congrArg _ hon)
  · rw [hk] at hon
    obtain ⟨-, hlong, hin, -⟩ := hon
    omega

theorem wideStep_inv (hi : ∃ bs, Inv s bs) (hok : SumsStep s op) (hs : wideStep s op = some s') : ∃ bs, Inv s' bs := by
  cases op with
  | kmalloc size flags =>
    simp only [wideStep] at hs
    by_cases hsize : size < word64
    · rw [if_pos hsize] at hs
      obtain ⟨bs, hi⟩ := hi
      have hon : Honest s.h size flags := (hi.honest_iff hsize).2 (hok hsize)
      rcases hi.kmalloc_of_honest hon with hk | ⟨ptr, h', bs', hk, hi'⟩
      · rw [hk] at hs
        cases hs
        exact ⟨bs, hi⟩
      · rw [hk] at hs
        cases hs
        exact ⟨bs', hi'⟩
    · rw [if_neg hsize] at hs
      cases hs
  | kfree ptr =>
    have hs' : step s (.kfree ptr) = some s' := hs
    exact step_inv hi hs'
  | write ptr i v =>
    have hs' : step s (.write ptr i v) = some s' := hs
    exact step_inv hi hs'

theorem honestStep_iff (hi : ∃ bs, Inv s bs) (op : Op) : HonestStep s op ↔ SumsStep s op := by
  obtain ⟨bs, hi⟩ := hi
  cases op with
  | kmalloc size flags => exact forall_congr' fun hsize => hi.honest_iff hsize
  | kfree ptr => exact Iff.rfl
  | write ptr i v => exact Iff.rfl

/-- **The runs in which `kmalloc` answers every size honestly** are those in which no sum wraps. -/
theorem honestKept_iff (l : List Op) (s s' : State) (h0 : wide.init s) :
    wide.RunOk HonestStep s l s' ↔ wide.RunOk SumsStep s l s' :=
  wide.runOk_iff (fun _ op hi => honestStep_iff hi op) (fun _ _ _ hi hok hs => wideStep_inv hi hok hs) l s s'
    ⟨[], Inv.init h0⟩

/-- A block, a request that is too large, and a block again. -/
theorem honestKept_large : ∃ s', wide.RunOk HonestStep bootHeap [.kmalloc 100 0, .kmalloc 9223372036854775808 0, .kfree 8,
    .kmalloc 40 gfpZero] s' := by
  refine ⟨_, (honestKept_iff _ _ _ ⟨⟨_, rfl⟩, rfl⟩).2 ⟨fun _ => .inr (.inl ⟨by decide, by decide⟩), _, rfl,
    fun _ => .inr (.inl ⟨by decide, by decide +kernel⟩), _, rfl, trivial, _, rfl,
    fun _ => .inr (.inl ⟨by decide, by decide +kernel⟩), _, rfl, rfl⟩⟩

/-- The largest size is rounded to 0, and the first block of the heap is handed out for it, without a byte. -/
theorem not_honest : wide.init bootHeap ∧ (kmalloc bootHeap.h 18446744073709551615 0).1 = some 8 ∧
    ¬Honest bootHeap.h 18446744073709551615 0 := by
  refine ⟨⟨⟨_, rfl⟩, rfl⟩, by decide +kernel, fun h => ?_⟩
  have hshort : payloadLen (kmalloc bootHeap.h 18446744073709551615 0).2 8 = 0 := by decide +kernel
  have hlong : 18446744073709551615 ≤ payloadLen (kmalloc bootHeap.h 18446744073709551615 0).2 8 := h.2.2.1
  omega

/-! ## The second `kfree` -/

/-- **A second `kfree` of a pointer changes nothing**, whatever other pointers are freed after the first. -/
def FreedTwice (s : State) : Prop :=
  ∀ c ∈ s.live, ∀ (t u : State) (ps : List Nat), wide.step s (.kfree c.ptr) = some t →
    wide.run t (ps.map Op.kfree) = some u → kfree u.h (some c.ptr) = u.h

/-- `p` is the payload of a block whose header says `FREE`, alone or inside a larger one, and no client's header touches
that header. -/
structure Stale (s : State) (p : Nat) : Prop where
  free : (hdrAt s.h.heap (p - slabHdrSz)).magic = slabMagicFree
  ptr : ∀ d ∈ s.live, slabHdrSz ≤ d.ptr
  apart : ∀ d ∈ s.live, d.ptr ≤ p - slabHdrSz ∨ p ≤ d.ptr - slabHdrSz

theorem kfree_of_free (h : Heap) (hfree : (hdrAt h.heap (p - slabHdrSz)).magic = slabMagicFree) :
    kfree h (some p) = h := by
  simp only [kfree]
  rw [if_pos hfree]

theorem kfree_step (hs : wide.step s (.kfree p) = some s') :
    (∃ c ∈ s.live, c.ptr = p) ∧ s' = ⟨kfree s.h (some p), s.live.filter (fun c => c.ptr ≠ p)⟩ := by
  have hs' : step s (.kfree p) = some s' := hs
  simp only [step] at hs'
  by_cases hlive : s.live.any (fun c => c.ptr = p) = true
  · rw [if_pos hlive] at hs'
    exact ⟨exists_client hlive, (Option.some.inj hs').symm⟩
  · rw [if_neg hlive] at hs'
    cases hs'

theorem hdrAt_congr {m m' : Mem} (h : ∀ x, off ≤ x → x < off + slabHdrSz → m' x = m x) : hdrAt m' off = hdrAt m off := by
  unfold slabHdrSz at h
  simp only [hdrAt]
  rw [Mem.read32_congr (fun x h1 h2 => h x (by omega) (by omega)),
    Mem.read32_congr (fun x h1 h2 => h x (by omega) (by omega))]

/-- **Freeing another pointer leaves the stale header alone**: it writes into the header of what it frees. -/
theorem Stale.kfree (h : Stale s p) (hp : slabHdrSz ≤ p) {q : Nat} (hs : wide.step s (.kfree q) = some s') :
    Stale s' p := by
  obtain ⟨⟨d, hd, rfl⟩, rfl⟩ := kfree_step hs
  have hsub : ∀ e ∈ s.live.filter (fun c => c.ptr ≠ d.ptr), e ∈ s.live := fun e he => List.mem_of_mem_filter he
  constructor
  · have hapart := h.apart d hd
    have hptr := h.ptr d hd
    rw [← Nat.sub_add_cancel hptr, hdrAt_congr (fun x h1 h2 => kfree_apart (by omega)), h.free]
  · exact fun e he => h.ptr e (hsub e he)
  · exact fun e he => h.apart e (hsub e he)

theorem Stale.run (hp : slabHdrSz ≤ p) : ∀ (ps : List Nat) {s s' : State}, Stale s p →
    wide.run s (ps.map Op.kfree) = some s' → Stale s' p
  | [], s, s', h, hs => by
    cases hs
    exact h
  | q :: ps, s, s', h, hs => by
    obtain ⟨t, ht, hrun⟩ := wide.run_cons.1 hs
    exact Stale.run hp ps (h.kfree hp ht) hrun

/-- **The first `kfree` leaves a stale header.** -/
theorem Inv.stale (hi : Inv s bs) (hc : c ∈ s.live) (hs : wide.step s (.kfree c.ptr) = some s') : Stale s' c.ptr := by
  obtain ⟨-, rfl⟩ := kfree_step hs
  obtain ⟨p, b, hb, hptr, halloc, -⟩ := hi.holds c hc
  have hread := hb.read hi.walk
  constructor
  · rw [hptr, Nat.add_sub_cancel, kfree_alloc hread halloc]
    split
    · rw [hdrAt_setSize, hdrAt_setMagic]
      rfl
    · rw [hdrAt_setMagic]
      rfl
  · intro d hd
    obtain ⟨q, e, -, hdptr, -⟩ := hi.holds d (List.mem_of_mem_filter hd)
    omega
  · intro d hd
    obtain ⟨hd, hne⟩ := List.mem_filter.1 hd
    obtain ⟨q, e, he, hdptr, -⟩ := hi.holds d hd
    have hne' : d.ptr ≠ c.ptr := by simpa using hne
    rcases AtPos.apart hb he with ⟨rfl, -⟩ | h | h
    · exact absurd (hdptr.trans hptr.symm) hne'
    · exact .inr (by omega)
    · exact .inl (by omega)

/-- **A double `kfree` is harmless** in every state a run without wrapping sums reaches. -/
theorem freedTwice_of_run (l : List Op) (s s' : State) (h0 : wide.init s) (h : wide.RunOk SumsStep s l s') :
    FreedTwice s' := by
  obtain ⟨bs, hi⟩ := wide.runOk_invariant (P := fun s => ∃ bs, Inv s bs) (fun _ _ _ hP hok hs => wideStep_inv hP hok hs)
    l s s' ⟨[], Inv.init h0⟩ h
  intro c hc t u ps hfree hrest
  obtain ⟨q, b, -, hptr, -⟩ := hi.holds c hc
  exact kfree_of_free u.h (Stale.run (by omega) ps (hi.stale hc hfree) hrest).free

/-- Three neighbours freed from right to left, and the rightmost freed again. -/
theorem freedTwice_of_run_merged : ∃ s, wide.run bootHeap [.kmalloc 16 0, .kmalloc 16 0, .kmalloc 16 0] = some s ∧
    FreedTwice s := by
  obtain ⟨s, hs⟩ : ∃ s, wide.RunOk SumsStep bootHeap [.kmalloc 16 0, .kmalloc 16 0, .kmalloc 16 0] s :=
    ⟨_, fun _ => .inr (.inl ⟨by decide, by decide⟩), _, rfl, fun _ => .inr (.inl ⟨by decide, by decide +kernel⟩), _, rfl,
      fun _ => .inr (.inl ⟨by decide, by decide +kernel⟩), _, rfl, rfl⟩
  exact ⟨s, hs.run, freedTwice_of_run _ _ _ ⟨⟨_, rfl⟩, rfl⟩ hs⟩

/-- The clients write what the heap takes for headers into blocks that `heap_bump` was moved back over. -/
def overlapped : List Op :=
  [.kmalloc 16 0, .kmalloc 18446744073709551600 0, .kmalloc 16 0, .kmalloc 16 0, .kmalloc 16 0, .kfree 72,
    .write 24 0 0x0C, .write 24 1 0, .write 24 2 0, .write 24 3 0,
    .write 48 0 0xAD, .write 48 1 0xDE, .write 48 2 0xE1, .write 48 3 0xFE, .kmalloc 16 0]

/-- A size that wraps moves `heap_bump` back, so that a client's bytes are read as headers: the block at 52 is handed out
over the header of the one at 48, which is refused on the first `kfree` and, once 52 is freed, not on the second. -/
theorem not_freedTwice : ∃ s, wide.run bootHeap overlapped = some s ∧ ¬FreedTwice s := by
  have hrun : ((wide.run bootHeap overlapped).any fun s => s.live.any (fun c => c.ptr = 48) &&
      ((wide.step s (.kfree 48)).any fun t => (wide.run t [.kfree 52]).any fun u =>
        (kfree u.h (some 48)).heapUsed ≠ u.h.heapUsed)) = true := by decide +kernel
  obtain ⟨s, hs, hrun⟩ := (Option.any_eq_true _ _).1 hrun
  rw [Bool.and_eq_true] at hrun
  obtain ⟨hlive, hrun⟩ := hrun
  obtain ⟨t, ht, hrun⟩ := (Option.any_eq_true _ _).1 hrun
  obtain ⟨u, hu, hne⟩ := (Option.any_eq_true _ _).1 hrun
  obtain ⟨c, hc, hp⟩ := exists_client hlive
  refine ⟨s, hs, fun h => of_decide_eq_true hne ?_⟩
  have hsame := h c hc t u [52] (by rw [hp]; exact ht) hu
  rw [hp] at hsame
  exact congrArg Heap.heapUsed hsame

end Slab
end Pico
