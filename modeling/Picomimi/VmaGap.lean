import Picomimi.VmaRun
/-!
# VmaGap — the range `sys_mmap` hands out

`find_free_vma` moves a hint past the areas in its way and adds the size to it unchecked.  `mmap_iff` says when what
`sys_mmap` returns is a free range of the user half: when the rounded size does not wrap and there is such a range above the
hint.  Elsewhere the search runs past the user half, or the sum wraps and the overlap test with it.
-/
namespace Pico
namespace Mm

open Lib

variable {s : State} {mm : MmStruct} {vs : List Vma} {l : List Nat} {v : Vma} {k hint size x tries length : Nat}

/-- The first address above the user half. -/
def userEnd : Nat := 0x800000000000

/-- **A real, free range**: `[a, a + size)` is at least the length asked for, page-aligned, in the user half and apart from
every area. -/
structure FreeRange (vs : List Vma) (length a size : Nat) : Prop where
  pos : 0 < length
  long : length ≤ size
  dvd : pageSize ∣ a
  below : a + size ≤ userEnd
  apart : Apart vs a (a + size)

/-- There is a free range of `size` bytes between `hint` and the end of the user half. -/
def Room (vs : List Vma) (hint size : Nat) : Prop := ∃ x, hint ≤ x ∧ x + size ≤ userEnd ∧ Apart vs x (x + size)

/-- The first `tries` areas begin each within `size` bytes of the end of the one before, the first of `hint`. -/
def Crowded (size : Nat) : Nat → Nat → List Vma → Prop
  | 0, _, _ => True
  | _ + 1, _, [] => False
  | tries + 1, hint, v :: vs => v.start < add64 hint size ∧ Crowded size tries v.endAddr vs

/-- Where the search of `find_free_vma` begins. -/
def gapHint (hint size : Nat) : Nat := alignDown (if hint = 0 then sub64 mmapTop size else hint) pageSize

/-- The call is refused before an address is looked for, or for want of a file or of pages. -/
def MmapRefused (length flags offset : Nat) (fdOk pages : Bool) : Prop :=
  length = 0 ∨ offset % pageSize ≠ 0 ∨ (has flags mapAnonymous = false ∧ fdOk = false) ∨ pages = false

/-! ## Rounding -/

theorem pageAlign_of_dvd (h : pageSize ∣ x) (hx : x < word64) : pageAlign x = x := by
  obtain ⟨n, rfl⟩ := h
  unfold pageAlign alignUp pageSize word64 at *
  rw [add64_of_lt (by unfold word64; omega)]
  omega

/-- **Rounding loses the length** when it wraps, and only then. -/
theorem le_pageAlign_iff (h0 : length ≠ 0) (hlt : length < word64) : length ≤ pageAlign length ↔ length + 4095 < word64 := by
  constructor
  · intro hle
    by_contra hwrap
    have hzero : pageAlign length = 0 := by
      unfold pageAlign alignUp pageSize word64 at *
      rw [show 4096 - 1 = 4095 from rfl, add64, Nat.mod_eq_sub_mod (by unfold word64; omega),
        Nat.mod_eq_of_lt (by unfold word64; omega)]
      unfold word64
      omega
    omega
  · exact fun h => (alignUp_bounds (by decide) h).1

/-! ## The search -/

/-- The search never goes back. -/
theorem le_findGap (ht : Tidy vs) : ∀ {tries hint : Nat}, findGap vs size tries hint ≠ 0 →
    hint ≤ findGap vs size tries hint
  | 0, hint, h => absurd rfl h
  | tries + 1, hint, h => by
    rw [findGap] at h ⊢
    cases hv : vs.find? (fun v : Vma => hint < v.endAddr ∧ v.start < add64 hint size) with
    | none => exact Nat.le_refl _
    | some v =>
      simp only [hv] at h ⊢
      have hend := (ht.range v (List.mem_of_find?_eq_some hv))
      have hcoll : hint < v.endAddr ∧ v.start < add64 hint size := by simpa using List.find?_some hv
      have hle := le_findGap ht h
      rw [pageAlign_of_dvd hend.dvd_end hend.end_lt] at hle ⊢
      omega

/-- **The search does not pass a free range**: an area in the way of the hint ends before it. -/
theorem findGap_le (ht : Tidy vs) (hbelow : x + size ≤ userEnd) (hfree : Apart vs x (x + size)) :
    ∀ (tries : Nat) {hint : Nat}, hint ≤ x → findGap vs size tries hint ≤ x
  | 0, hint, _ => Nat.zero_le _
  | tries + 1, hint, hle => by
    rw [findGap]
    cases hv : vs.find? (fun v : Vma => hint < v.endAddr ∧ v.start < add64 hint size) with
    | none => exact hle
    | some v =>
      have hmem := List.mem_of_find?_eq_some hv
      have hend := ht.range v hmem
      have hcoll : hint < v.endAddr ∧ v.start < add64 hint size := by simpa using List.find?_some hv
      have hw : userEnd < word64 := by decide
      rw [add64_of_lt (by omega)] at hcoll
      refine findGap_le ht hbelow hfree tries ?_
      rw [pageAlign_of_dvd hend.dvd_end hend.end_lt]
      rcases hfree v hmem with h | h
      · exact h
      · omega

/-- The first area that ends above the hint is the only one that can be first in its way. -/
theorem find_collision {A B : List Vma} (ht : Tidy (A ++ v :: B)) (hA : ∀ w ∈ A, w.endAddr ≤ hint)
    (hv : hint < v.endAddr) : (A ++ v :: B).find? (fun v : Vma => hint < v.endAddr ∧ v.start < add64 hint size) =
      if v.start < add64 hint size then some v else none := by
  have hnone : A.find? (fun v : Vma => hint < v.endAddr ∧ v.start < add64 hint size) = none := by
    refine List.find?_eq_none.2 fun w hw => ?_
    have := hA w hw
    simp only [decide_eq_true_eq]
    omega
  obtain ⟨-, -, hr, -, hB, -⟩ := tidy_middle.1 ht
  have hlt := hr.lt
  rw [List.find?_append, hnone, Option.none_or]
  by_cases hin : v.start < add64 hint size
  · rw [if_pos hin, List.find?_cons_of_pos (by simp [hv, hin])]
  · rw [if_neg hin, List.find?_cons_of_neg (by simp [hin])]
    refine List.find?_eq_none.2 fun w hw => ?_
    have := hB w hw
    simp only [decide_eq_true_eq]
    omega

/-- **When the search finds nothing**: it runs out of tries, or it takes address 0 for a failure. -/
theorem findGap_eq_zero (size : Nat) : ∀ (tries : Nat) {hint : Nat} {A B : List Vma}, Tidy (A ++ B) → (∀ w ∈ A, w.endAddr ≤ hint) →
    (∀ w ∈ B, hint < w.endAddr) → (findGap (A ++ B) size (tries + 1) hint = 0 ↔
      Crowded size (tries + 1) hint B ∨ (hint = 0 ∧ ∀ w ∈ B, add64 hint size ≤ w.start))
  | tries, hint, A, [], _, hA, _ => by
    have hnone : (A ++ []).find? (fun v : Vma => hint < v.endAddr ∧ v.start < add64 hint size) = none := by
      refine List.find?_eq_none.2 fun w hw => ?_
      have := hA w (by simpa using hw)
      simp only [decide_eq_true_eq]
      omega
    rw [findGap, hnone]
    simp [Crowded]
  | tries, hint, A, v :: B, ht, hA, hB => by
    have hv := hB v List.mem_cons_self
    obtain ⟨-, hBt, hr, -, hvB, -⟩ := tidy_middle.1 ht
    have hlt := hr.lt
    rw [findGap, find_collision ht hA hv, Crowded]
    by_cases hin : v.start < add64 hint size
    · -- past `v`, the areas above the hint are those after it
      rw [if_pos hin]
      dsimp only
      rw [pageAlign_of_dvd hr.dvd_end hr.end_lt]
      have hno : ¬(hint = 0 ∧ ∀ w ∈ v :: B, add64 hint size ≤ w.start) := by
        rintro ⟨-, h⟩
        have := h v List.mem_cons_self
        omega
      rw [or_iff_left hno, and_iff_right hin]
      cases tries with
      | zero => simp [findGap, Crowded]
      | succ tries =>
        have ht' : Tidy ((A ++ [v]) ++ B) := by simpa using ht
        have hA' : ∀ w ∈ A ++ [v], w.endAddr ≤ v.endAddr := by
          intro w hw
          rcases List.mem_append.1 hw with hw | hw
          · have := hA w hw
            omega
          · exact Nat.le_of_eq (congrArg _ (List.mem_singleton.1 hw))
        have hB' : ∀ w ∈ B, v.endAddr < w.endAddr := fun w hw =>
          Nat.lt_of_le_of_lt (hvB w hw) (hBt.range w hw).lt
        have ih := findGap_eq_zero size tries ht' hA' hB'
        rw [List.append_assoc, List.singleton_append] at ih
        rw [ih]
        exact or_iff_left fun h => by omega
    · rw [if_neg hin]
      dsimp only
      have hcrowd : ¬(v.start < add64 hint size ∧ Crowded size tries v.endAddr B) := fun h => hin h.1
      rw [or_iff_right hcrowd]
      refine ⟨fun h0 => ⟨h0, fun w hw => ?_⟩, fun h => h.1⟩
      rcases List.mem_cons.1 hw with rfl | hw
      · omega
      · have := hvB w hw
        omega

/-- A tidy list, split where the areas end above the hint. -/
theorem Tidy.split_above (hint : Nat) : ∀ {vs : List Vma}, Tidy vs →
    ∃ A, vs = A ++ vs.filter (fun v => hint < v.endAddr) ∧ ∀ w ∈ A, w.endAddr ≤ hint
  | [], _ => ⟨[], rfl, List.forall_mem_nil _⟩
  | v :: vs, ht => by
    obtain ⟨hr, ht', hvs⟩ := tidy_cons.1 ht
    by_cases hv : hint < v.endAddr
    · refine ⟨[], ?_, List.forall_mem_nil _⟩
      rw [List.nil_append, List.filter_eq_self.2]
      intro w hw
      rcases List.mem_cons.1 hw with rfl | hw
      · exact decide_eq_true hv
      · have := hvs w hw
        have := (ht'.range w hw).lt
        exact decide_eq_true (by omega)
    · obtain ⟨A, hA, hle⟩ := Tidy.split_above hint ht'
      refine ⟨v :: A, ?_, fun w hw => ?_⟩
      · rw [List.filter_cons_of_neg (by simpa using hv), List.cons_append, ← hA]
      · rcases List.mem_cons.1 hw with rfl | hw
        · omega
        · exact hle w hw

/-! ## The call -/

/-- What `sys_mmap` returns is a free range, or an error. -/
def MapsFree (s : State) (l : List Nat) (k hint length prot flags offset : Nat) (fdOk pages : Bool) (node : Option Nat) :
    Prop :=
  ∀ a, (sysMmap s k hint length prot flags offset fdOk pages node).1 = .ok a →
    FreeRange (l.map s.vmas) length a (pageAlign length)

/-- **What `sys_mmap` returns without `MAP_FIXED`**, when it is not refused. -/
theorem sysMmap_ok {prot flags offset a : Nat} {fdOk pages : Bool} {node : Option Nat} (hk : s.mms k = some mm)
    (hfix : has flags mapFixed = false) :
    (sysMmap s k hint length prot flags offset fdOk pages node).1 = .ok a ↔
      ¬MmapRefused length flags offset fdOk pages ∧ a ≠ 0 ∧
        a = findGap (s.areas mm) (pageAlign length) 512 (gapHint hint (pageAlign length)) := by
  have haddr : ∀ b, mmapAddr s mm hint (pageAlign length) flags = .ok b ↔
      b ≠ 0 ∧ b = findGap (s.areas mm) (pageAlign length) 512 (gapHint hint (pageAlign length)) := by
    intro b
    have hgap : findFreeVma s mm hint (pageAlign length) =
        findGap (s.areas mm) (pageAlign length) 512 (gapHint hint (pageAlign length)) := rfl
    unfold mmapAddr
    rw [if_neg (by simp [hfix])]
    dsimp only
    rw [hgap]
    by_cases h0 : findGap (s.areas mm) (pageAlign length) 512 (gapHint hint (pageAlign length)) = 0
    · rw [if_pos h0, h0]
      exact iff_of_false (fun h => by cases h) fun h => h.1 h.2
    · rw [if_neg h0, Except.ok.injEq]
      exact ⟨fun h => ⟨h ▸ h0, h.symm⟩, fun h => h.2.symm⟩
  unfold sysMmap MmapRefused
  by_cases h0 : length = 0
  · simp [h0]
  by_cases hoff : offset % pageSize ≠ 0
  · simp [h0, hoff]
  rw [if_neg h0, if_neg hoff, hk]
  dsimp only
  rw [← haddr a]
  cases hva : mmapAddr s mm hint (pageAlign length) flags with
  | error e => simp
  | ok b =>
    dsimp only
    by_cases hfd : has flags mapAnonymous = false ∧ fdOk = false
    · simp [hfd]
    by_cases hpages : pages = false
    · rw [if_neg hfd, if_pos hpages]
      simp [hpages]
    rw [if_neg hfd, if_neg hpages]
    have hnot : ¬(length = 0 ∨ offset % pageSize ≠ 0 ∨ (has flags mapAnonymous = false ∧ fdOk = false) ∨ pages = false) := by
      rintro (h | h | h | h)
      · exact h0 h
      · exact hoff h
      · exact hfd h
      · exact hpages h
    rw [and_iff_right hnot]
    rcases vmaAlloc s node with ⟨_ | i, s'⟩ <;> exact Iff.rfl

/-- **When `sys_mmap` hands out a real, free range**, or an error: the call is refused; the search runs out of tries, or comes
to address 0; or the rounded length does not wrap and there is room above the hint. -/
theorem mmap_iff (hl : ListWf s mm l) (hlive : ∀ i, s.live i = true → i < s.bound) (hk : s.mms k = some mm)
    (hint length prot flags offset : Nat) (fdOk pages : Bool) (node : Option Nat) (hlen : length < word64)
    (hfix : has flags mapFixed = false) :
    MapsFree s l k hint length prot flags offset fdOk pages node ↔
      MmapRefused length flags offset fdOk pages ∨
      Crowded (pageAlign length) 512 (gapHint hint (pageAlign length))
        ((l.map s.vmas).filter fun v => gapHint hint (pageAlign length) < v.endAddr) ∨
      (gapHint hint (pageAlign length) = 0 ∧ ∀ v ∈ l.map s.vmas, pageAlign length ≤ v.start) ∨
      (length + 4095 < word64 ∧ Room (l.map s.vmas) (gapHint hint (pageAlign length)) (pageAlign length)) := by
  have hareas : s.areas mm = l.map s.vmas := by
    rw [State.areas, State.nodes,
      hl.chain.nodesFrom_eq (Dll.length_le_of_lt hl.tidy.nodup fun i h => hlive i (hl.live i h))]
  unfold MapsFree
  simp only [sysMmap_ok hk hfix, hareas]
  by_cases href : MmapRefused length flags offset fdOk pages
  · exact iff_of_true (fun a h => absurd href h.1) (.inl href)
  have h0 : length ≠ 0 := fun h => href (.inl h)
  have hsize : pageAlign length < word64 := pageAlign_lt length
  have hdvd : pageSize ∣ gapHint hint (pageAlign length) := dvd_alignDown _ _
  generalize gapHint hint (pageAlign length) = start at hdvd ⊢
  have ht := hl.tidy
  generalize l.map s.vmas = vs at ht ⊢
  obtain ⟨A, hA, hAle⟩ := ht.split_above start
  have hzero : findGap vs (pageAlign length) 512 start = 0 ↔
      Crowded (pageAlign length) 512 start (vs.filter fun v => start < v.endAddr) ∨
        (start = 0 ∧ ∀ v ∈ vs, pageAlign length ≤ v.start) := by
    have h := findGap_eq_zero (pageAlign length) 511 (hA ▸ ht) hAle fun w hw => by simpa using (List.mem_filter.1 hw).2
    rw [← hA] at h
    rw [h]
    refine or_congr_right (and_congr_right fun hs => ?_)
    subst hs
    have hall : vs.filter (fun v => 0 < v.endAddr) = vs := by
      refine List.filter_eq_self.2 fun v hv => decide_eq_true ?_
      have := (ht.range v hv).lt
      omega
    rw [hall, add64_of_lt (by omega), Nat.zero_add]
  rw [or_iff_right href, ← or_assoc, ← hzero]
  constructor
  · intro h
    by_cases hgap : findGap vs (pageAlign length) 512 start = 0
    · exact .inl hgap
    · have hr := h _ ⟨href, hgap, rfl⟩
      exact .inr ⟨(le_pageAlign_iff h0 hlen).1 hr.long, _, le_findGap ht hgap, hr.below, hr.apart⟩
  · rintro (hgap | ⟨hround, x, hle, hbelow, hfree⟩) a ⟨-, hne, rfl⟩
    · exact absurd hgap hne
    · have hx := findGap_le ht hbelow hfree 512 hle
      have hw : userEnd < word64 := by decide
      exact ⟨Nat.pos_of_ne_zero h0, (le_pageAlign_iff h0 hlen).2 hround, dvd_findGap hdvd, by omega,
        findGap_apart hne (by omega)⟩

/-- A user stack, in an address space that has nothing else. -/
def stackOnly : State :=
  registerVma bootState 0 ⟨0x7FFFFEFF0000, 0x7FFFFF000000, vmRead ||| vmWrite, vmGrowsDown, 0⟩ (some 0)

/-- Two pages asked for at the stack are mapped behind it. -/
theorem mapsFree_stackOnly : ∃ L, Inv stackOnly L ∧ L 0 ≠ [] ∧
    MapsFree stackOnly (L 0) 0 0x7FFFFEFF0000 5000 3 mapAnonymous 0 true true none := by
  obtain ⟨L, hi⟩ : ∃ L, Inv stackOnly L := (Inv.init bootState_init).registerVma rfl (.inr (by decide +kernel))
  have hk : ∃ mm, stackOnly.mms 0 = some mm ∧ (stackOnly.areas mm).map Vma.endAddr = [0x7FFFFF000000] ∧
      Apart (stackOnly.areas mm) 0x7FFFFF000000 0x7FFFFF002000 := ⟨_, rfl, by decide +kernel, by decide +kernel⟩
  obtain ⟨mm, hk, hends, hfree⟩ := hk
  rw [hi.areas_eq hk] at hends hfree
  refine ⟨L, hi, fun hnil => ?_, ?_⟩
  · rw [hnil] at hends
    cases hends
  · exact (mmap_iff (hi.lists 0 mm hk) hi.bound hk _ _ _ _ _ _ _ _ (by decide) (by decide)).2
      (.inr (.inr (.inr ⟨by decide, 0x7FFFFF000000, by decide, by decide, hfree⟩)))

/-- A length of `2 ^ 64 - 1` is rounded to 0, and an address is returned for it. -/
theorem not_mapsFree : ListWf bootState ⟨none, 0x600000, 0x600000, 0x7FFFFF000000, 0⟩ [] ∧
    (sysMmap bootState 0 0 18446744073709551615 3 mapAnonymous 0 true true none).1 = .ok 0x7FFF00000000 ∧
    ¬MapsFree bootState [] 0 0 18446744073709551615 3 mapAnonymous 0 true true none := by
  have haddr : (sysMmap bootState 0 0 18446744073709551615 3 mapAnonymous 0 true true none).1 = .ok 0x7FFF00000000 := by
    decide +kernel
  refine ⟨⟨rfl, List.forall_mem_nil _, tidy_nil⟩, haddr, fun h => ?_⟩
  have hlong : 18446744073709551615 ≤ pageAlign 18446744073709551615 := (h _ haddr).long
  exact absurd hlong (by decide +kernel)

end Mm
end Pico
