import Picomimi.Lib.Bitmap
import Picomimi.Lib.Run
import Picomimi.Lib.Word
import Mathlib.Order.Interval.Finset.Nat
/-!
# Pmm — pages of physical memory

`page_bitmap` has a bit for each page of 256 MiB, from the first region at 1 MiB or above on.  `pmm_init` sets all of them,
`pmm_add_region` none, and `pmm_reserve_region` clears those it counts from that base, by a difference that wraps below
it.  So the regions only fix where the 256 MiB lie; `owned_iff` says for which boot maps every page handed out is
nevertheless memory of its own, and `free_memory` right.
-/
namespace Pico
namespace Pmm

open Lib

def pageSize : Nat := 4096

def maxMemRegions : Nat := 64

/-- `BITMAP_SIZE`, "Up to 256MB". -/
def bitmapSize : Nat := 256 * 1024 * 1024 / pageSize / 64

def bitmapPages : Nat := bitmapSize * 64

/-- An address and a size, both a `u64`. -/
structure Region where
  base : Nat
  size : Nat
  base_lt : base < word64
  size_lt : size < word64

/-- `pmm_state` with `page_bitmap` and `bitmap_base`. -/
structure PmmState where
  regions : List Region       -- the first `num_regions`
  totalMemory : Nat
  freeMemory : Nat
  usedMemory : Nat
  pageBitmap : Nat → Bool     -- by page: bit `page % 64` of word `page / 64`
  bitmapBase : Nat

def pmmInit : PmmState := ⟨[], 0, 0, 0, fun _ => true, 0⟩

def pmmAddRegion (s : PmmState) (r : Region) : PmmState :=
  if maxMemRegions ≤ s.regions.length then s
  else { s with
    regions := s.regions ++ [r]
    totalMemory := add64 s.totalMemory r.size
    freeMemory := add64 s.freeMemory r.size
    bitmapBase := if s.bitmapBase = 0 ∧ 0x100000 ≤ r.base then r.base else s.bitmapBase }

def startPage (base : Nat) (r : Region) : Nat := sub64 r.base base / pageSize

def numPages (r : Region) : Nat := add64 r.size (pageSize - 1) / pageSize

def pmmReserveRegion (s : PmmState) (r : Region) : PmmState :=
  if s.bitmapBase = 0 then s
  else { s with
    pageBitmap := clearRun bitmapPages s.pageBitmap (numPages r) (startPage s.bitmapBase r)
    usedMemory := add64 s.usedMemory r.size
    freeMemory := sub64 s.freeMemory r.size }

def pageAddr (base page : Nat) : Nat := add64 base (page * pageSize)

/-- `pmm_alloc_page`; 0 is "Out of memory". -/
def pmmAllocPage (s : PmmState) : Nat × PmmState :=
  match firstSet s.pageBitmap bitmapSize 64 with
  | none => (0, s)
  | some page => (pageAddr s.bitmapBase page, { s with
      pageBitmap := Function.update s.pageBitmap page false
      freeMemory := sub64 s.freeMemory pageSize
      usedMemory := add64 s.usedMemory pageSize })

def pmmFreePage (s : PmmState) (addr : Nat) : PmmState :=
  if addr < s.bitmapBase then s
  else
    let page := sub64 addr s.bitmapBase / pageSize
    if page / 64 < bitmapSize then { s with
      pageBitmap := Function.update s.pageBitmap page true
      freeMemory := add64 s.freeMemory pageSize
      usedMemory := sub64 s.usedMemory pageSize }
    else s

/-- The calls of `kernel_main`: the memory map, then the reservations. -/
def boot (adds reserves : List Region) : PmmState :=
  reserves.foldl pmmReserveRegion (adds.foldl pmmAddRegion pmmInit)

/-! ## Runs -/

inductive Op where
  | alloc
  | free (addr : Nat)

/-- The allocator and the pages outstanding. -/
structure Client where
  pmm : PmmState
  pages : List Nat

/-- An outstanding page may be freed. -/
def step (c : Client) : Op → Option Client
  | .alloc => some ⟨(pmmAllocPage c.pmm).2, if (pmmAllocPage c.pmm).1 = 0 then c.pages else (pmmAllocPage c.pmm).1 :: c.pages⟩
  | .free addr => if addr ∈ c.pages then some ⟨pmmFreePage c.pmm addr, c.pages.erase addr⟩ else none

/-- The allocator after these calls at boot. -/
def machine (adds reserves : List Region) : Machine Client Op where
  init c := c = ⟨boot adds reserves, []⟩
  step := step

/-- The page at this address lies wholly inside. -/
def Region.Contains (r : Region) (a : Nat) : Prop := r.base ≤ a ∧ a + pageSize ≤ r.base + r.size

/-- The page at this address has a byte in it. -/
def Region.Meets (r : Region) (a : Nat) : Prop := r.base < a + pageSize ∧ a < r.base + r.size ∧ 0 < r.size

/-- The pages `pmm_alloc_page` can still return; at address 0 it cannot. -/
def allocatable (s : PmmState) : Finset Nat :=
  (setBits s.pageBitmap bitmapPages).filter fun page => pageAddr s.bitmapBase page ≠ 0

/-- **Every outstanding page is memory of its own, and `free_memory` is what is left.** -/
structure Owned (adds reserves : List Region) (c : Client) : Prop where
  inside : ∀ a ∈ c.pages, ∃ r ∈ adds, r.Contains a
  unreserved : ∀ a ∈ c.pages, ∀ r ∈ reserves, ¬r.Meets a
  apart : c.pages.Pairwise fun a b => a + pageSize ≤ b ∨ b + pageSize ≤ a
  free : c.pmm.freeMemory = (allocatable c.pmm).card * pageSize

/-! ## The boot map -/

/-- The first region at 1 MiB or above. -/
def highBase (regions : List Region) : Nat :=
  match regions.find? fun r => 0x100000 ≤ r.base with
  | none => 0
  | some r => r.base

/-- Where the 256 MiB start; there is room for 64 regions. -/
def windowBase (adds : List Region) : Nat := highBase (adds.take maxMemRegions)

/-- The pages of the 256 MiB that no reservation reaches. -/
def unmarked (adds reserves : List Region) : Finset Nat :=
  (Finset.range bitmapPages).filter fun page => ∀ r ∈ reserves,
    ¬(startPage (windowBase adds) r ≤ page ∧ page < startPage (windowBase adds) r + numPages r)

def totalSize : List Region → Nat
  | [] => 0
  | r :: l => r.size + totalSize l

/-- **The map and the reservations account for each of the 256 MiB.** -/
structure MapOk (adds reserves : List Region) : Prop where
  window : windowBase adds ≠ 0
  pages : ∀ page ∈ unmarked adds reserves, pageAddr (windowBase adds) page ≠ 0 ∧
    (∃ r ∈ adds, r.Contains (pageAddr (windowBase adds) page)) ∧
    ∀ r ∈ reserves, ¬r.Meets (pageAddr (windowBase adds) page)
  sizes : (totalSize reserves + (unmarked adds reserves).card * pageSize) % word64 =
    totalSize (adds.take maxMemRegions) % word64

variable {s : PmmState} {c c' : Client} {adds reserves : List Region} {base page p q n : Nat}

theorem mem_unmarked : page ∈ unmarked adds reserves ↔ page < bitmapPages ∧ ∀ r ∈ reserves,
    ¬(startPage (windowBase adds) r ≤ page ∧ page < startPage (windowBase adds) r + numPages r) := by
  simp only [unmarked, Finset.mem_filter, Finset.mem_range]

/-! ## What boot leaves -/

theorem highBase_append (l : List Region) (r : Region) :
    highBase (l ++ [r]) = if highBase l = 0 ∧ 0x100000 ≤ r.base then r.base else highBase l := by
  unfold highBase
  rw [List.find?_append]
  cases hl : l.find? fun r => 0x100000 ≤ r.base with
  | none => by_cases hr : 0x100000 ≤ r.base <;> simp [hr]
  | some r' =>
    have hr' := List.find?_some hl
    have : r'.base ≠ 0 := by
      simp only [decide_eq_true_eq] at hr'
      omega
    simp [this]

theorem highBase_lt (l : List Region) : highBase l < word64 := by
  unfold highBase
  split
  · decide
  · exact Region.base_lt _

theorem totalSize_append (l : List Region) (r : Region) : totalSize (l ++ [r]) = totalSize l + r.size := by
  induction l with
  | nil => simp [totalSize]
  | cons a l ih => rw [List.cons_append, totalSize, totalSize, ih, Nat.add_assoc]

/-- While regions are added. -/
structure Adding (s : PmmState) : Prop where
  base : s.bitmapBase = highBase s.regions
  free : s.freeMemory = totalSize s.regions % word64
  bits : ∀ page, s.pageBitmap page = true

theorem Adding.pmmAddRegion (h : Adding s) (r : Region) : Adding (pmmAddRegion s r) := by
  unfold Pmm.pmmAddRegion
  split
  · exact h
  · refine ⟨?_, ?_, h.bits⟩
    · rw [highBase_append, h.base]
    · rw [totalSize_append, h.free, add64_mod]

theorem pmmAddRegion_regions (r : Region) (hs : s.regions.length ≤ maxMemRegions) :
    (pmmAddRegion s r).regions = (s.regions ++ [r]).take maxMemRegions := by
  unfold pmmAddRegion
  by_cases hfull : maxMemRegions ≤ s.regions.length
  · rw [if_pos hfull, List.take_append_of_le_length hfull, List.take_of_length_le hs]
  · rw [if_neg hfull, List.take_of_length_le (by simp; omega)]

theorem take_take_append (a l : List Region) (n : Nat) : (a.take n ++ l).take n = (a ++ l).take n := by
  rw [List.take_append, List.take_append, List.take_take, Nat.min_self, List.length_take]
  rw [show n - min n a.length = n - a.length by omega]

theorem foldl_add : ∀ (l : List Region) {s : PmmState}, Adding s → s.regions.length ≤ maxMemRegions →
    Adding (l.foldl pmmAddRegion s) ∧ (l.foldl pmmAddRegion s).regions = (s.regions ++ l).take maxMemRegions
  | [], s, h, hs => ⟨h, by rw [List.append_nil, List.take_of_length_le hs, List.foldl_nil]⟩
  | r :: l, s, h, hs => by
    have hreg := pmmAddRegion_regions r hs
    obtain ⟨h1, h2⟩ := foldl_add l (h.pmmAddRegion r) (by rw [hreg]; exact List.length_take_le _ _)
    refine ⟨h1, h2.trans ?_⟩
    rw [hreg, take_take_append, List.append_assoc, List.singleton_append]

theorem added (adds : List Region) : Adding (adds.foldl pmmAddRegion pmmInit) ∧
    (adds.foldl pmmAddRegion pmmInit).regions = adds.take maxMemRegions :=
  foldl_add adds ⟨rfl, rfl, fun _ => rfl⟩ (Nat.zero_le _)

theorem foldl_reserve_bitmapBase (l : List Region) (s : PmmState) :
    (l.foldl pmmReserveRegion s).bitmapBase = s.bitmapBase := by
  induction l generalizing s with
  | nil => rfl
  | cons r l ih =>
    rw [List.foldl_cons, ih]
    unfold pmmReserveRegion
    split <;> rfl

theorem boot_bitmapBase (adds reserves : List Region) : (boot adds reserves).bitmapBase = windowBase adds := by
  obtain ⟨h, hreg⟩ := added adds
  unfold boot
  rw [foldl_reserve_bitmapBase, h.base, hreg, windowBase]

/-- With no base, every page stays free. -/
theorem foldl_reserve_none (l : List Region) {s : PmmState} (hs : s.bitmapBase = 0) : l.foldl pmmReserveRegion s = s := by
  induction l with
  | nil => rfl
  | cons r l ih => rw [List.foldl_cons, pmmReserveRegion, if_pos hs, ih]

/-- **Each reservation clears the pages it counts**, and takes its size off `free_memory`. -/
theorem foldl_reserve : ∀ (l : List Region) {s : PmmState}, s.bitmapBase ≠ 0 → s.freeMemory < word64 →
    (∀ page, page < bitmapPages → ((l.foldl pmmReserveRegion s).pageBitmap page = true ↔ s.pageBitmap page = true ∧
      ∀ r ∈ l, ¬(startPage s.bitmapBase r ≤ page ∧ page < startPage s.bitmapBase r + numPages r))) ∧
    (l.foldl pmmReserveRegion s).freeMemory < word64 ∧
    (totalSize l + (l.foldl pmmReserveRegion s).freeMemory) % word64 = s.freeMemory
  | [], s, _, hs => ⟨fun page _ => by simp, hs, by rw [totalSize, Nat.zero_add, List.foldl_nil, Nat.mod_eq_of_lt hs]⟩
  | r :: l, s, hb, hs => by
    have hstep : pmmReserveRegion s r = { s with
        pageBitmap := clearRun bitmapPages s.pageBitmap (numPages r) (startPage s.bitmapBase r)
        usedMemory := add64 s.usedMemory r.size
        freeMemory := sub64 s.freeMemory r.size } := if_neg hb
    have ih := foldl_reserve l (s := pmmReserveRegion s r) (by rw [hstep]; exact hb) (by rw [hstep]; exact sub64_lt _ _)
    rw [List.foldl_cons]
    refine ⟨fun page hp => ?_, ih.2.1, ?_⟩
    · rw [ih.1 page hp, hstep]
      simp only [clearRun_apply, Bool.and_eq_true, Bool.not_eq_true', decide_eq_false_iff_not, List.forall_mem_cons,
        hp, and_true, and_assoc]
    · have hfree := ih.2.2
      have hr := r.size_lt
      rw [hstep] at hfree
      dsimp only at hfree
      rw [hstep, totalSize]
      unfold sub64 word64 at *
      omega

theorem boot_setBits (hw : windowBase adds ≠ 0) :
    setBits (boot adds reserves).pageBitmap bitmapPages = unmarked adds reserves := by
  obtain ⟨h, hreg⟩ := added adds
  have hbase : (adds.foldl pmmAddRegion pmmInit).bitmapBase = windowBase adds := by rw [h.base, hreg, windowBase]
  have hfree : (adds.foldl pmmAddRegion pmmInit).freeMemory < word64 := by
    rw [h.free]
    exact Nat.mod_lt _ (by decide)
  have hr := (foldl_reserve reserves (hbase ▸ hw) hfree).1
  rw [hbase] at hr
  ext page
  rw [mem_setBits, mem_unmarked]
  apply and_congr_right
  intro hp
  exact (hr page hp).trans (by simp only [h.bits, true_and])

theorem card_unmarked_le (adds reserves : List Region) : (unmarked adds reserves).card ≤ bitmapPages := by
  refine (Finset.card_filter_le _ _).trans ?_
  rw [Finset.card_range]

/-- **`free_memory` is right after boot when the sizes add up.** -/
theorem boot_freeMemory (hw : windowBase adds ≠ 0) :
    (boot adds reserves).freeMemory = (unmarked adds reserves).card * pageSize ↔
      (totalSize reserves + (unmarked adds reserves).card * pageSize) % word64 =
        totalSize (adds.take maxMemRegions) % word64 := by
  obtain ⟨h, hreg⟩ := added adds
  have hbase : (adds.foldl pmmAddRegion pmmInit).bitmapBase = windowBase adds := by rw [h.base, hreg, windowBase]
  have hlt : (adds.foldl pmmAddRegion pmmInit).freeMemory < word64 := by
    rw [h.free]
    exact Nat.mod_lt _ (by decide)
  obtain ⟨-, hfree, hsum⟩ := foldl_reserve reserves (hbase ▸ hw) hlt
  rw [h.free, hreg] at hsum
  have hcard := card_unmarked_le adds reserves
  have hsmall : bitmapPages * pageSize < word64 := by decide
  have hle : (unmarked adds reserves).card * pageSize ≤ bitmapPages * pageSize := Nat.mul_le_mul_right _ hcard
  change (boot adds reserves).freeMemory < word64 at hfree
  change (totalSize reserves + (boot adds reserves).freeMemory) % word64 = _ at hsum
  unfold word64 at *
  omega

/-! ## Pages of the window -/

theorem pageAddr_inj (hp : p < bitmapPages) (hq : q < bitmapPages)
    (h : pageAddr base p = pageAddr base q) : p = q := by
  have hpages : bitmapPages = 65536 := rfl
  unfold pageAddr add64 pageSize word64 at *
  omega

theorem pageAddr_apart (hp : p < bitmapPages) (hq : q < bitmapPages) (h : p ≠ q) :
    pageAddr base p + pageSize ≤ pageAddr base q ∨ pageAddr base q + pageSize ≤ pageAddr base p := by
  have hpages : bitmapPages = 65536 := rfl
  unfold pageAddr add64 pageSize word64 at *
  omega

/-- A page is found again, also where its address wrapped. -/
theorem page_of_pageAddr (hb : base < word64) (hp : p < bitmapPages) :
    sub64 (pageAddr base p) base / pageSize = p := by
  have hpages : bitmapPages = 65536 := rfl
  unfold pageAddr add64 sub64 pageSize word64 at *
  omega

/-! ## The allocator -/

/-- **The books**: an outstanding page is one of the window's, with its bit clear. -/
structure Inv (adds reserves : List Region) (c : Client) : Prop where
  base : c.pmm.bitmapBase = windowBase adds
  bits : setBits c.pmm.pageBitmap bitmapPages ⊆ unmarked adds reserves
  pages : ∀ a ∈ c.pages, ∃ page ∈ unmarked adds reserves, a = pageAddr (windowBase adds) page ∧
    c.pmm.pageBitmap page = false
  nodup : c.pages.Nodup
  free : c.pmm.freeMemory = (setBits c.pmm.pageBitmap bitmapPages).card * pageSize

theorem windowBase_lt (adds : List Region) : windowBase adds < word64 := highBase_lt _

theorem inv_boot (h : MapOk adds reserves) : Inv adds reserves ⟨boot adds reserves, []⟩ where
  base := boot_bitmapBase adds reserves
  bits := (boot_setBits h.window).subset
  pages := by simp
  nodup := List.nodup_nil
  free := by
    dsimp only
    rw [boot_setBits h.window]
    exact (boot_freeMemory h.window).2 h.sizes

theorem pmmAllocPage_some (h : firstSet s.pageBitmap bitmapSize 64 = some page) :
    pmmAllocPage s = (pageAddr s.bitmapBase page, { s with
      pageBitmap := Function.update s.pageBitmap page false
      freeMemory := sub64 s.freeMemory pageSize
      usedMemory := add64 s.usedMemory pageSize }) := by
  unfold pmmAllocPage
  rw [h]

theorem pmmAllocPage_none (h : firstSet s.pageBitmap bitmapSize 64 = none) : pmmAllocPage s = (0, s) := by
  unfold pmmAllocPage
  rw [h]

theorem bytes_lt (h : n ≤ bitmapPages) : n * pageSize < word64 :=
  (Nat.mul_le_mul_right pageSize h).trans_lt (by decide)

theorem step_alloc {r : Nat × PmmState} (h : pmmAllocPage c.pmm = r) :
    step c .alloc = some ⟨r.2, if r.1 = 0 then c.pages else r.1 :: c.pages⟩ := by
  rw [← h]
  rfl

/-- An allocation that finds a page. -/
theorem step_alloc_some (h : firstSet c.pmm.pageBitmap bitmapSize 64 = some page) : ∃ c', step c .alloc = some c' ∧
    c'.pmm.bitmapBase = c.pmm.bitmapBase ∧ c'.pmm.pageBitmap = Function.update c.pmm.pageBitmap page false ∧
    c'.pmm.freeMemory = sub64 c.pmm.freeMemory pageSize ∧
    c'.pages = if pageAddr c.pmm.bitmapBase page = 0 then c.pages else pageAddr c.pmm.bitmapBase page :: c.pages := by
  have hstep := step_alloc (pmmAllocPage_some h)
  have hbase : ∀ bits free used, ({ c.pmm with
      pageBitmap := bits, freeMemory := free, usedMemory := used } : PmmState).bitmapBase = c.pmm.bitmapBase :=
    fun _ _ _ => rfl
  refine ⟨_, hstep, ?_, rfl, rfl, rfl⟩
  exact hbase _ _ _

/-- **`pmm_alloc_page` hands out a page of the window**, or nothing. -/
theorem Inv.alloc (h : Inv adds reserves c) (hmap : MapOk adds reserves) (hs : step c .alloc = some c') :
    Inv adds reserves c' := by
  cases hf : firstSet c.pmm.pageBitmap bitmapSize 64 with
  | none =>
    rw [step_alloc (pmmAllocPage_none hf)] at hs
    obtain rfl := Option.some.inj hs
    exact h
  | some page =>
    obtain ⟨hlt, hbit⟩ : page < bitmapPages ∧ c.pmm.pageBitmap page = true := firstSet_some hf
    have hun : page ∈ unmarked adds reserves := h.bits (mem_setBits.2 ⟨hlt, hbit⟩)
    have hcard := card_clear hlt hbit
    have hle := card_setBits_le c.pmm.pageBitmap bitmapPages
    obtain ⟨c1, hs1, hbase, hbits, hfree, hpages⟩ := step_alloc_some hf
    rw [hs1] at hs
    obtain rfl := Option.some.inj hs
    rw [h.base, if_neg (hmap.pages page hun).1] at hpages
    refine ⟨hbase.trans h.base, ?_, ?_, ?_, ?_⟩
    · rw [hbits, setBits_clear]
      exact (Finset.erase_subset _ _).trans h.bits
    · intro a ha
      rw [hpages] at ha
      rcases List.mem_cons.1 ha with rfl | ha
      · exact ⟨page, hun, rfl, by simp [hbits]⟩
      · obtain ⟨q, hq, hqa, hclear⟩ := h.pages a ha
        exact ⟨q, hq, hqa, by simp [hbits, Function.update_apply, hclear]⟩
    · rw [hpages]
      refine List.nodup_cons.2 ⟨fun hmem => ?_, h.nodup⟩
      obtain ⟨q, hq, hqa, hclear⟩ := h.pages _ hmem
      rw [← pageAddr_inj hlt (mem_unmarked.1 hq).1 hqa, hbit] at hclear
      cases hclear
    · have hsub := bytes_lt hle
      rw [hfree, hbits, h.free]
      rw [← hcard, Nat.succ_mul] at hsub ⊢
      rw [sub64_of_le (Nat.le_add_left _ _) hsub, Nat.add_sub_cancel]

theorem Inv.freePage (h : Inv adds reserves c) {addr : Nat} (hs : step c (.free addr) = some c') :
    Inv adds reserves c' := by
  unfold step at hs
  dsimp only at hs
  by_cases ha : addr ∈ c.pages
  · rw [if_pos ha] at hs
    cases hs
    obtain ⟨page, hun, rfl, hclear⟩ := h.pages addr ha
    have hlt := (mem_unmarked.1 hun).1
    have hsub : ∀ a ∈ c.pages.erase (pageAddr (windowBase adds) page), a ∈ c.pages := fun a h => List.mem_of_mem_erase h
    unfold pmmFreePage
    rw [h.base]
    by_cases hlow : pageAddr (windowBase adds) page < windowBase adds
    · rw [if_pos hlow]
      exact ⟨h.base, h.bits, fun a ha => h.pages a (hsub a ha), h.nodup.erase _, h.free⟩
    · have hpage := page_of_pageAddr (windowBase_lt adds) hlt
      have hidx : page / 64 < bitmapSize := (Nat.div_lt_iff_lt_mul (by decide)).2 hlt
      rw [if_neg hlow]
      dsimp only
      rw [hpage, if_pos hidx]
      have hcard := card_set hlt hclear
      have hle := card_setBits_le (Function.update c.pmm.pageBitmap page true) bitmapPages
      refine ⟨rfl, ?_, fun a ha => ?_, h.nodup.erase _, ?_⟩
      · dsimp only
        rw [setBits_set hlt]
        exact Finset.insert_subset hun h.bits
      · obtain ⟨q, hq, rfl, hqclear⟩ := h.pages a (hsub a ha)
        refine ⟨q, hq, rfl, ?_⟩
        have hne : q ≠ page := by
          rintro rfl
          exact h.nodup.not_mem_erase ha
        simpa [Function.update_of_ne hne] using hqclear
      · have hadd := bytes_lt hle
        dsimp only
        rw [hcard, Nat.succ_mul] at hadd ⊢
        rw [h.free, add64_of_lt hadd]
  · rw [if_neg ha] at hs
    cases hs

theorem step_inv (hmap : MapOk adds reserves) (op : Op) (h : Inv adds reserves c) (hs : step c op = some c') :
    Inv adds reserves c' := by
  cases op with
  | alloc => exact h.alloc hmap hs
  | free addr => exact h.freePage hs

theorem Inv.owned (h : Inv adds reserves c) (hmap : MapOk adds reserves) : Owned adds reserves c where
  inside a ha := by
    obtain ⟨page, hun, rfl, -⟩ := h.pages a ha
    exact (hmap.pages page hun).2.1
  unreserved a ha := by
    obtain ⟨page, hun, rfl, -⟩ := h.pages a ha
    exact (hmap.pages page hun).2.2
  apart := h.nodup.imp_of_mem fun ha hb hne => by
    obtain ⟨p, hp, rfl, -⟩ := h.pages _ ha
    obtain ⟨q, hq, rfl, -⟩ := h.pages _ hb
    exact pageAddr_apart (mem_unmarked.1 hp).1 (mem_unmarked.1 hq).1 fun he => hne (he ▸ rfl)
  free := by
    have hall : allocatable c.pmm = setBits c.pmm.pageBitmap bitmapPages := by
      apply Finset.filter_true_of_mem
      intro page hpage
      rw [h.base]
      exact (hmap.pages page (h.bits hpage)).1
    rw [h.free, hall]

/-! ## Every free page is handed out some time -/

/-- **Allocating on and on reaches a free page.** -/
theorem reach (hp : page < bitmapPages) : ∀ (k : Nat) (c : Client), (setBits c.pmm.pageBitmap bitmapPages).card ≤ k →
    c.pmm.pageBitmap page = true → ∃ l c', (machine adds reserves).run c l = some c' ∧
      c'.pmm.bitmapBase = c.pmm.bitmapBase ∧ firstSet c'.pmm.pageBitmap bitmapSize 64 = some page := by
  intro k
  induction k with
  | zero =>
    intro c hk hbit
    have hmem : page ∈ setBits c.pmm.pageBitmap bitmapPages := mem_setBits.2 ⟨hp, hbit⟩
    have := Finset.card_pos.2 ⟨page, hmem⟩
    omega
  | succ k ih =>
    intro c hk hbit
    cases hf : firstSet c.pmm.pageBitmap bitmapSize 64 with
    | none =>
      rw [firstSet_none hf hp] at hbit
      cases hbit
    | some q =>
      by_cases hq : q = page
      · exact ⟨[], c, rfl, rfl, hq ▸ hf⟩
      · obtain ⟨hlt, hqbit⟩ : q < bitmapPages ∧ c.pmm.pageBitmap q = true := firstSet_some hf
        have hcard := card_clear hlt hqbit
        obtain ⟨c1, hs, hb, hbits, -⟩ := step_alloc_some hf
        have hbit1 : c1.pmm.pageBitmap page = true := by rwa [hbits, Function.update_of_ne (Ne.symm hq)]
        obtain ⟨l, c', hrun, hbase, hfirst⟩ := ih c1 (by rw [hbits]; omega) hbit1
        exact ⟨.alloc :: l, c', (Machine.run_cons _).2 ⟨c1, hs, hrun⟩, hbase.trans hb, hfirst⟩

/-- **A page that is free after boot has an address of its own, in a region and off the reservations**, if every run
keeps `Owned`. -/
theorem page_of_owned (hall : ∀ l c, (machine adds reserves).run ⟨boot adds reserves, []⟩ l = some c →
    Owned adds reserves c) (hp : page < bitmapPages) (hbit : (boot adds reserves).pageBitmap page = true) :
    pageAddr (windowBase adds) page ≠ 0 ∧ (∃ r ∈ adds, r.Contains (pageAddr (windowBase adds) page)) ∧
      ∀ r ∈ reserves, ¬r.Meets (pageAddr (windowBase adds) page) := by
  obtain ⟨l, c, hrun, hbase, hfirst⟩ := reach hp _ ⟨boot adds reserves, []⟩ le_rfl hbit
  obtain ⟨c', hs, hb, hbits, hfree, hpages⟩ := step_alloc_some hfirst
  have hrun' : (machine adds reserves).run ⟨boot adds reserves, []⟩ (l ++ [.alloc]) = some c' := by
    rw [Machine.run_append _ hrun]
    exact (Machine.run_cons _).2 ⟨c', hs, rfl⟩
  have hown := hall _ _ hrun'
  rw [hbase, boot_bitmapBase] at hpages
  have hzero : pageAddr (windowBase adds) page ≠ 0 := by
    -- at address 0 the page is taken off `free_memory`, and could not have been allocated
    intro h0
    have hsame : allocatable c'.pmm = allocatable c.pmm := by
      ext q
      simp only [allocatable, Finset.mem_filter, mem_setBits, hbits, hb, hbase, boot_bitmapBase]
      by_cases hq : q = page
      · simp [hq, h0]
      · simp [Function.update_of_ne hq]
    have hc := (hall _ _ hrun).free
    have hc' := hown.free
    rw [hsame, hfree, hc] at hc'
    have hle : (allocatable c.pmm).card ≤ bitmapPages := (Finset.card_filter_le _ _).trans (card_setBits_le _ _)
    have hlt := bytes_lt hle
    unfold sub64 pageSize word64 at *
    omega
  rw [if_neg hzero] at hpages
  have hmem : pageAddr (windowBase adds) page ∈ c'.pages := by
    rw [hpages]
    exact List.mem_cons_self
  exact ⟨hzero, hown.inside _ hmem, hown.unreserved _ hmem⟩

/-- **Every run keeps its pages apart, in the regions and off the reservations, and `free_memory` right, exactly when the
boot map accounts for the 256 MiB.** -/
theorem owned_iff (adds reserves : List Region) :
    (∀ c l c', (machine adds reserves).init c → (machine adds reserves).run c l = some c' → Owned adds reserves c') ↔
      MapOk adds reserves := by
  constructor
  · intro hall
    have hall' : ∀ l c, (machine adds reserves).run ⟨boot adds reserves, []⟩ l = some c → Owned adds reserves c :=
      fun l c => hall _ l c rfl
    have hwindow : windowBase adds ≠ 0 := by
      intro h0
      obtain ⟨hadd, hreg⟩ := added adds
      have hbase : (adds.foldl pmmAddRegion pmmInit).bitmapBase = 0 := by rw [hadd.base, hreg, ← h0, windowBase]
      have hbit : (boot adds reserves).pageBitmap 0 = true := by
        unfold boot
        rw [foldl_reserve_none reserves hbase]
        exact hadd.bits 0
      exact (page_of_owned hall' (by decide) hbit).1 (by rw [h0]; rfl)
    have hbits : setBits (boot adds reserves).pageBitmap bitmapPages = unmarked adds reserves := boot_setBits hwindow
    have hpages : ∀ page ∈ unmarked adds reserves, _ := fun page hpage =>
      page_of_owned hall' (mem_unmarked.1 hpage).1 (mem_setBits.1 (hbits ▸ hpage)).2
    refine ⟨hwindow, hpages, (boot_freeMemory hwindow).1 ?_⟩
    have hfree := (hall' [] _ rfl).free
    dsimp only at hfree
    rw [hfree, ← hbits]
    unfold allocatable
    rw [Finset.filter_true_of_mem]
    intro page hpage
    rw [boot_bitmapBase]
    exact (hpages page (hbits ▸ hpage)).1
  · rintro hmap c l c' rfl hrun
    exact ((machine adds reserves).run_invariant (fun c op c' h hs => step_inv hmap op h hs) l _ c' (inv_boot hmap)
      hrun).owned hmap

/-- Low memory and 256 MiB from 1 MiB on, both reserved as `kernel_main` does, for a kernel of 2 MiB. -/
def bootAdds : List Region := [⟨0, 0x100000, by decide, by decide⟩, ⟨0x100000, 0x10000000, by decide, by decide⟩]

def bootReserves : List Region := [⟨0, 0x100000, by decide, by decide⟩, ⟨0x100000, 0x200000, by decide, by decide⟩]

theorem unmarked_boot : unmarked bootAdds bootReserves = Finset.Ico 512 bitmapPages := by
  ext page
  rw [mem_unmarked, Finset.mem_Ico]
  have hlow : startPage (windowBase bootAdds) ⟨0, 0x100000, by decide, by decide⟩ = 4503599627370240 := by decide
  have hkernel : startPage (windowBase bootAdds) ⟨0x100000, 0x200000, by decide, by decide⟩ = 0 := by decide
  have hpages : bitmapPages = 65536 := rfl
  simp only [bootReserves, List.forall_mem_cons, hlow, hkernel, numPages, add64, pageSize, word64, hpages]
  simp
  omega

theorem mapOk_boot : MapOk bootAdds bootReserves where
  window := by decide
  pages page hpage := by
    rw [unmarked_boot, Finset.mem_Ico] at hpage
    have hpages : bitmapPages = 65536 := rfl
    have haddr : pageAddr (windowBase bootAdds) page = 0x100000 + page * pageSize := by
      rw [show windowBase bootAdds = 0x100000 by decide, pageAddr, add64_of_lt]
      unfold pageSize word64
      omega
    rw [haddr]
    unfold pageSize
    refine ⟨by omega, ⟨⟨0x100000, 0x10000000, by decide, by decide⟩, by simp [bootAdds], ?_⟩, ?_⟩
    · unfold Region.Contains pageSize
      dsimp only
      omega
    · simp only [bootReserves, List.forall_mem_cons, Region.Meets, pageSize]
      refine ⟨by omega, by omega, by simp⟩
  sizes := by
    rw [unmarked_boot, Nat.card_Ico]
    decide

theorem owned_boot : ∀ c l c', (machine bootAdds bootReserves).init c →
    (machine bootAdds bootReserves).run c l = some c' → Owned bootAdds bootReserves c' :=
  (owned_iff bootAdds bootReserves).2 mapOk_boot

/-- One page of memory at 1 MiB: the second page handed out lies beyond it. -/
theorem not_owned : ¬∀ (adds reserves : List Region) (c : Client) (l : List Op) (c' : Client),
    (machine adds reserves).init c → (machine adds reserves).run c l = some c' → Owned adds reserves c' := by
  intro h
  have hrun : ((machine [⟨0x100000, 0x1000, by decide, by decide⟩] []).run
      ⟨boot [⟨0x100000, 0x1000, by decide, by decide⟩] [], []⟩ [.alloc, .alloc]).any
      (fun c => c.pages.contains 0x101000) = true := by decide +kernel
  obtain ⟨c, hc, hmem⟩ := (Option.any_eq_true _ _).1 hrun
  obtain ⟨r, hr, hin⟩ := (h _ _ _ _ c rfl hc).inside 0x101000 (by simpa using hmem)
  obtain rfl := List.mem_singleton.1 hr
  exact absurd hin.2 (by decide)

end Pmm
end Pico
