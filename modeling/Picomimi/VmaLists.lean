import Picomimi.Vma
/-!
# VmaLists — what a well-formed VMA list is, and the edits that keep it

`Tidy` is a list of ranges: non-empty, page-aligned, in order and apart.  `ListWf` is a list of nodes in memory whose ranges
are tidy and whose nodes are all allocated; `Inv` says so of every address space, and that no two share a node.  The edits
below it (`setMm`, `setVma`, `alloc`, `insertVma`) are what the system calls are made of.
-/
namespace Pico
namespace Mm

open Lib

/-! ## Ranges -/

structure RangeWf (v : Vma) : Prop where
  lt : v.start < v.endAddr
  dvd_start : pageSize ∣ v.start
  dvd_end : pageSize ∣ v.endAddr
  end_lt : v.endAddr < word64

/-- **Non-empty, page-aligned, sorted and pairwise disjoint.** -/
structure Tidy (vs : List Vma) : Prop where
  range : ∀ v ∈ vs, RangeWf v
  sorted : vs.Pairwise fun v w => v.endAddr ≤ w.start

/-- `[a, b)` meets none of the areas. -/
def Apart (vs : List Vma) (a b : Nat) : Prop := ∀ v ∈ vs, v.endAddr ≤ a ∨ b ≤ v.start

instance (v : Vma) : Decidable (RangeWf v) :=
  decidable_of_iff (v.start < v.endAddr ∧ pageSize ∣ v.start ∧ pageSize ∣ v.endAddr ∧ v.endAddr < word64)
    ⟨fun ⟨h1, h2, h3, h4⟩ => ⟨h1, h2, h3, h4⟩, fun ⟨h1, h2, h3, h4⟩ => ⟨h1, h2, h3, h4⟩⟩

instance (vs : List Vma) (a b : Nat) : Decidable (Apart vs a b) :=
  inferInstanceAs (Decidable (∀ v ∈ vs, v.endAddr ≤ a ∨ b ≤ v.start))

theorem tidy_nil : Tidy [] := ⟨List.forall_mem_nil _, List.Pairwise.nil⟩

theorem tidy_append {A B : List Vma} :
    Tidy (A ++ B) ↔ Tidy A ∧ Tidy B ∧ ∀ v ∈ A, ∀ w ∈ B, v.endAddr ≤ w.start := by
  constructor
  · rintro ⟨hr, hs⟩
    obtain ⟨h1, h2, h3⟩ := List.pairwise_append.1 hs
    exact ⟨⟨fun v hv => hr v (List.mem_append_left B hv), h1⟩, ⟨fun v hv => hr v (List.mem_append_right A hv), h2⟩, h3⟩
  · rintro ⟨⟨hra, hsa⟩, ⟨hrb, hsb⟩, h⟩
    refine ⟨fun v hv => ?_, List.pairwise_append.2 ⟨hsa, hsb, h⟩⟩
    rcases List.mem_append.1 hv with hv | hv
    · exact hra v hv
    · exact hrb v hv

theorem tidy_cons {v : Vma} {B : List Vma} :
    Tidy (v :: B) ↔ RangeWf v ∧ Tidy B ∧ ∀ w ∈ B, v.endAddr ≤ w.start := by
  constructor
  · rintro ⟨hr, hs⟩
    obtain ⟨h1, h2⟩ := List.pairwise_cons.1 hs
    exact ⟨hr v List.mem_cons_self, ⟨fun w hw => hr w (List.mem_cons_of_mem v hw), h2⟩, h1⟩
  · rintro ⟨hv, ⟨hr, hs⟩, h⟩
    refine ⟨fun w hw => ?_, List.pairwise_cons.2 ⟨h, hs⟩⟩
    rcases List.mem_cons.1 hw with rfl | hw
    · exact hv
    · exact hr w hw

/-- A tidy list, taken apart at one of its areas. -/
theorem tidy_middle {A B : List Vma} {v : Vma} :
    Tidy (A ++ v :: B) ↔ Tidy A ∧ Tidy B ∧ RangeWf v ∧ (∀ w ∈ A, w.endAddr ≤ v.start) ∧
      (∀ w ∈ B, v.endAddr ≤ w.start) ∧ ∀ u ∈ A, ∀ w ∈ B, u.endAddr ≤ w.start := by
  rw [tidy_append, tidy_cons]
  constructor
  · rintro ⟨hA, ⟨hv, hB, hvB⟩, h⟩
    exact ⟨hA, hB, hv, fun w hw => h w hw v List.mem_cons_self, hvB,
      fun u hu w hw => h u hu w (List.mem_cons_of_mem v hw)⟩
  · rintro ⟨hA, hB, hv, hAv, hvB, h⟩
    refine ⟨hA, ⟨hv, hB, hvB⟩, fun u hu w hw => ?_⟩
    rcases List.mem_cons.1 hw with rfl | hw
    · exact hAv u hu
    · exact h u hu w hw

/-- **An area moved within the gap around it.** -/
theorem Tidy.replace {A B : List Vma} {v v' : Vma} (h : Tidy (A ++ v :: B)) (hv : RangeWf v')
    (hA : ∀ w ∈ A, w.endAddr ≤ v'.start) (hB : ∀ w ∈ B, v'.endAddr ≤ w.start) : Tidy (A ++ v' :: B) := by
  obtain ⟨h1, h2, -, -, -, h3⟩ := tidy_middle.1 h
  exact tidy_middle.2 ⟨h1, h2, hv, hA, hB, h3⟩

/-- **An area cut** stays in its place. -/
theorem Tidy.shrink {A B : List Vma} {v v' : Vma} (h : Tidy (A ++ v :: B)) (hv : RangeWf v')
    (hs : v.start ≤ v'.start) (he : v'.endAddr ≤ v.endAddr) : Tidy (A ++ v' :: B) := by
  obtain ⟨-, -, -, h1, h2, -⟩ := tidy_middle.1 h
  exact h.replace hv (fun w hw => Nat.le_trans (h1 w hw) hs) (fun w hw => Nat.le_trans he (h2 w hw))

/-- **Where a range that meets no area goes.** -/
theorem Tidy.split {α : Type} (f : α → Vma) {a b : Nat} (hab : a < b) : ∀ {l : List α}, Tidy (l.map f) →
    Apart (l.map f) a b →
    ∃ A B, l = A ++ B ∧ (∀ x ∈ A, (f x).endAddr ≤ a) ∧ ∀ x ∈ B, b ≤ (f x).start
  | [], _, _ => ⟨[], [], rfl, List.forall_mem_nil _, List.forall_mem_nil _⟩
  | x :: l, ht, hap => by
    obtain ⟨hx, hl, hxl⟩ := tidy_cons.1 ht
    rcases hap (f x) List.mem_cons_self with h | h
    · obtain ⟨A, B, rfl, hA, hB⟩ := Tidy.split f hab hl (fun v hv => hap v (List.mem_cons_of_mem (f x) hv))
      refine ⟨x :: A, B, rfl, fun y hy => ?_, hB⟩
      rcases List.mem_cons.1 hy with rfl | hy
      · exact h
      · exact hA y hy
    · refine ⟨[], x :: l, rfl, List.forall_mem_nil _, fun y hy => ?_⟩
      rcases List.mem_cons.1 hy with rfl | hy
      · exact h
      · have := hxl (f y) (List.mem_map_of_mem hy)
        have := hx.lt
        omega

/-- **Two areas of a tidy list are apart.** -/
theorem Tidy.disjoint {α : Type} {f : α → Vma} {l : List α} {x y : α} (h : Tidy (l.map f)) (hx : x ∈ l) (hy : y ∈ l)
    (hne : y ≠ x) : (f y).endAddr ≤ (f x).start ∨ (f x).endAddr ≤ (f y).start := by
  obtain ⟨A, B, rfl⟩ := List.append_of_mem hx
  rw [List.map_append, List.map_cons] at h
  obtain ⟨-, -, -, hA, hB, -⟩ := tidy_middle.1 h
  rcases List.mem_append.1 hy with hy | hy
  · exact .inl (hA _ (List.mem_map_of_mem hy))
  · exact .inr (hB _ (List.mem_map_of_mem ((List.mem_cons.1 hy).resolve_left hne)))

/-- The nodes of a tidy list are different. -/
theorem Tidy.nodup {α : Type} {f : α → Vma} {l : List α} (h : Tidy (l.map f)) : l.Nodup := by
  have hp := List.pairwise_map.1 h.sorted
  refine hp.imp_of_mem fun {a b} ha _ hab => ?_
  rintro rfl
  have := (h.range (f a) (List.mem_map_of_mem ha)).lt
  omega

/-! ## Lists in memory -/

/-- **A well-formed VMA list with the nodes `l`**: the links are mutually inverse, every node is allocated, and the ranges
are tidy. -/
structure ListWf (s : State) (mm : MmStruct) (l : List Nat) : Prop where
  chain : s.links.Path none mm.mmap l none
  live : ∀ i ∈ l, s.live i = true
  tidy : Tidy (l.map s.vmas)

/-- **Every address space has a well-formed list**, and no node is on two. -/
structure Inv (s : State) (L : Nat → List Nat) : Prop where
  lists : ∀ k mm, s.mms k = some mm → ListWf s mm (L k)
  absent : ∀ k, s.mms k = none → L k = []
  bound : ∀ i, s.live i = true → i < s.bound
  apart : ∀ j k i, i ∈ L j → i ∈ L k → j = k

variable {s s' : State} {L : Nat → List Nat} {k i : Nat} {mm mm' : MmStruct} {l l' : List Nat}

theorem Inv.live (hi : Inv s L) (h : i ∈ L k) : s.live i = true := by
  cases hk : s.mms k with
  | none =>
    rw [hi.absent k hk] at h
    cases h
  | some mm => exact (hi.lists k mm hk).live i h

theorem Inv.nodes_eq (hi : Inv s L) (hk : s.mms k = some mm) : s.nodes mm = L k := by
  have hl := hi.lists k mm hk
  exact hl.chain.nodesFrom_eq (Dll.length_le_of_lt hl.tidy.nodup fun i h => hi.bound i (hl.live i h))

theorem Inv.areas_eq (hi : Inv s L) (hk : s.mms k = some mm) : s.areas mm = (L k).map s.vmas := by
  rw [State.areas, hi.nodes_eq hk]

/-- What a step on the address space `k` leaves alone, when the list of `k` becomes `l'`. -/
structure Frame (s s' : State) (L : Nat → List Nat) (k : Nat) (l' : List Nat) : Prop where
  mms : ∀ j, j ≠ k → s'.mms j = s.mms j
  same : ∀ j, j ≠ k → ∀ i ∈ L j, s'.vmas i = s.vmas i ∧ s'.links.next i = s.links.next i ∧
    s'.links.prev i = s.links.prev i ∧ s'.live i = true
  fresh : ∀ j, j ≠ k → ∀ i ∈ L j, i ∉ l'
  bound : ∀ i, s'.live i = true → i < s'.bound

/-- **A list nobody touched stays well formed.** -/
theorem ListWf.congr (h : ListWf s mm l) (hsame : ∀ i ∈ l, s'.vmas i = s.vmas i ∧ s'.links.next i = s.links.next i ∧
    s'.links.prev i = s.links.prev i ∧ s'.live i = true) : ListWf s' mm l := by
  refine ⟨h.chain.congr fun i hi => ⟨(hsame i hi).2.1, (hsame i hi).2.2.1⟩, fun i hi => (hsame i hi).2.2.2, ?_⟩
  rw [List.map_congr_left fun i hi => (hsame i hi).1]
  exact h.tidy

/-- **The frame rule**: a step that leaves one well-formed list keeps them all. -/
theorem Inv.update (hi : Inv s L) (hf : Frame s s' L k l') (hk : s'.mms k = some mm') (hl : ListWf s' mm' l') :
    Inv s' (Function.update L k l') := by
  refine ⟨fun j mm hj => ?_, fun j hj => ?_, hf.bound, fun a b x ha hb => ?_⟩
  · by_cases hjk : j = k
    · subst hjk
      rw [Function.update_self]
      cases hk.symm.trans hj
      exact hl
    · rw [Function.update_of_ne hjk]
      rw [hf.mms j hjk] at hj
      exact (hi.lists j mm hj).congr (hf.same j hjk)
  · have hjk : j ≠ k := by
      rintro rfl
      cases hk.symm.trans hj
    rw [Function.update_of_ne hjk]
    exact hi.absent j ((hf.mms j hjk).symm.trans hj)
  · by_cases hak : a = k <;> by_cases hbk : b = k
    · rw [hak, hbk]
    · subst hak
      rw [Function.update_self] at ha
      rw [Function.update_of_ne hbk] at hb
      exact absurd ha (hf.fresh b hbk x hb)
    · subst hbk
      rw [Function.update_of_ne hak] at ha
      rw [Function.update_self] at hb
      exact absurd hb (hf.fresh a hak x ha)
    · rw [Function.update_of_ne hak] at ha
      rw [Function.update_of_ne hbk] at hb
      exact hi.apart a b x ha hb

theorem Inv.notMem (hi : Inv s L) {j x : Nat} (hj : j ≠ k) (hx : x ∈ L j) : x ∉ L k :=
  fun h => hj (hi.apart j k x hx h)

/-! ## The edits -/

/-- A field of the `mm_struct` other than `mmap`. -/
theorem Inv.setMm (hi : Inv s L) (hk : s.mms k = some mm) (hm : mm'.mmap = mm.mmap) : Inv (s.setMm k mm') L := by
  have hl := hi.lists k mm hk
  have hf : Frame s (s.setMm k mm') L k (L k) :=
    ⟨fun j hj => Function.update_of_ne hj _ _, fun j _ i h => ⟨rfl, rfl, rfl, hi.live h⟩,
      fun j hj i h => hi.notMem hj h, hi.bound⟩
  have h := hi.update hf (Function.update_self ..)
    ⟨by rw [hm]; exact hl.chain, hl.live, hl.tidy⟩
  rwa [Function.update_eq_self] at h

theorem Inv.subTotalVm (hi : Inv s L) (k n : Nat) : Inv (Mm.subTotalVm s k n) L := by
  unfold Mm.subTotalVm
  split
  · exact hi
  · rename_i mm hk
    exact hi.setMm hk rfl

theorem Inv.addTotalVm (hi : Inv s L) (k n : Nat) : Inv (Mm.addTotalVm s k n) L := by
  unfold Mm.addTotalVm
  split
  · exact hi
  · rename_i mm hk
    exact hi.setMm hk rfl

theorem Inv.setBrk (hi : Inv s L) (k addr : Nat) : Inv (Mm.setBrk s k addr) L := by
  unfold Mm.setBrk
  split
  · exact hi
  · rename_i mm hk
    exact hi.setMm hk rfl

theorem map_update_of_notMem {f : Nat → Vma} {v : Vma} (h : i ∉ l) : l.map (Function.update f i v) = l.map f := by
  refine List.map_congr_left fun j hj => Function.update_of_ne ?_ _ _
  rintro rfl
  exact h hj

/-- **A node of the list gets another range**, and the list is still tidy. -/
theorem Inv.setVma {A B : List Nat} {v : Vma} (hi : Inv s L) (hk : s.mms k = some mm) (hL : L k = A ++ i :: B)
    (ht : Tidy (A.map s.vmas ++ v :: B.map s.vmas)) : Inv (s.setVma i v) L := by
  have hl := hi.lists k mm hk
  have hnd := hl.tidy.nodup
  rw [hL] at hnd
  have hmem : i ∈ L k := by
    rw [hL]
    simp
  have hAB : i ∉ A ∧ i ∉ B := by
    have h1 := (List.nodup_middle.1 hnd)
    have h2 := (List.nodup_cons.1 h1).1
    exact ⟨fun h => h2 (List.mem_append_left B h), fun h => h2 (List.mem_append_right A h)⟩
  have hf : Frame s (s.setVma i v) L k (L k) := by
    refine ⟨fun _ _ => rfl, fun j hj x hx => ⟨Function.update_of_ne ?_ _ _, rfl, rfl, hi.live hx⟩,
      fun j hj x h => hi.notMem hj h, hi.bound⟩
    rintro rfl
    exact hi.notMem hj hx hmem
  have h := hi.update hf hk ⟨hl.chain, hl.live, ?_⟩
  · rwa [Function.update_eq_self] at h
  · rw [hL, List.map_append, List.map_cons]
    simp only [State.setVma, Function.update_self]
    rw [map_update_of_notMem hAB.1, map_update_of_notMem hAB.2]
    exact ht

/-- A node on no list gets its fields. -/
theorem Inv.setFree (hi : Inv s L) (hfree : ∀ k, i ∉ L k) (v : Vma) : Inv (s.setVma i v) L := by
  refine ⟨fun k mm hk => (hi.lists k mm hk).congr fun j hj => ⟨Function.update_of_ne ?_ _ _, rfl, rfl, ?_⟩,
    hi.absent, hi.bound, hi.apart⟩
  · rintro rfl
    exact hfree k hj
  · exact hi.live hj

/-- **A fresh node** is on no list. -/
theorem Inv.vmaAlloc {node : Option Nat} (hi : Inv s L) (h : Mm.vmaAlloc s node = (some i, s')) :
    Inv s' L ∧ s'.mms = s.mms ∧ (∀ k, i ∉ L k) ∧ s'.live i = true ∧ ∀ j, j ≠ i → s'.vmas j = s.vmas j := by
  cases node with
  | none => cases h
  | some n =>
    simp only [Mm.vmaAlloc] at h
    by_cases hn : s.live n = true
    · rw [if_pos hn] at h
      cases h
    · rw [if_neg hn] at h
      cases h
      have hfree : ∀ k, i ∉ L k := fun k hmem => hn (hi.live hmem)
      refine ⟨⟨fun k mm hk => (hi.lists k mm hk).congr fun j hj => ?_, hi.absent, fun j hj => ?_, hi.apart⟩,
        rfl, hfree, Function.update_self .., fun j hj => Function.update_of_ne hj _ _⟩
      · have hji : j ≠ i := by
          rintro rfl
          exact hfree k hj
        simp only [Dll.setNext, Dll.setPrev, Function.update_of_ne hji]
        exact ⟨trivial, trivial, trivial, hi.live hj⟩
      · by_cases hji : j = i
        · subst hji
          exact Nat.lt_of_lt_of_le (Nat.lt_succ_self j) (Nat.le_max_right _ _)
        · simp only [Function.update_of_ne hji] at hj
          exact Nat.lt_of_lt_of_le (hi.bound j hj) (Nat.le_max_left _ _)

theorem vmaAlloc_none {node : Option Nat} (h : Mm.vmaAlloc s node = (none, s')) : s' = s := by
  cases node with
  | none => exact (congrArg Prod.snd h).symm
  | some n =>
    simp only [Mm.vmaAlloc] at h
    split at h
    · exact (congrArg Prod.snd h).symm
    · cases h

/-! ## `insert_vma` -/

/-- **The loop of `insert_vma` stops at the first area that starts above.** -/
theorem insertPos_eq {x : Nat} {B : List Nat} : ∀ {A : List Nat} {fuel : Nat} {p cur : Option Nat},
    s.links.Path p cur (A ++ B) none → (∀ a ∈ A, (s.vmas a).start ≤ x) →
    (∀ b ∈ B, x < (s.vmas b).start) → A.length < fuel → insertPos s x fuel p cur = (Dll.last p A, B.head?)
  | A, 0, _, _, _, _, _, hf => absurd hf (Nat.not_lt_zero _)
  | [], fuel + 1, p, cur, hp, _, hB, _ => by
    rw [hp.head_eq]
    cases B with
    | nil => rfl
    | cons b B =>
      obtain ⟨-, hprev, -⟩ := hp
      simp only [List.nil_append, List.head?_cons, insertPos, if_pos (hB b List.mem_cons_self), hprev, Dll.last]
  | a :: A, fuel + 1, p, cur, hp, hA, hB, hf => by
    obtain ⟨rfl, -, hrest⟩ := hp
    have ha := hA a List.mem_cons_self
    simp only [insertPos, if_neg (Nat.not_lt.2 ha), Dll.last]
    exact insertPos_eq hrest (fun b hb => hA b (List.mem_cons_of_mem a hb)) hB (Nat.lt_of_succ_lt_succ hf)

/-- **`insert_vma` keeps every list**, when the new range fits between two areas. -/
theorem Inv.insertVma {A B : List Nat} (hi : Inv s L) (hk : s.mms k = some mm) (hL : L k = A ++ B)
    (hfree : ∀ k, i ∉ L k) (hlive : s.live i = true) (hr : RangeWf (s.vmas i))
    (hA : ∀ a ∈ A, (s.vmas a).endAddr ≤ (s.vmas i).start) (hB : ∀ b ∈ B, (s.vmas i).endAddr ≤ (s.vmas b).start) :
    Inv (Mm.insertVma s k i) (Function.update L k (A ++ i :: B)) := by
  have hl := hi.lists k mm hk
  have hifree := hfree k
  rw [hL] at hl hifree
  have hnd := hl.tidy.nodup
  have hlt := hr.lt
  have hfuel : A.length < s.bound := by
    have hnd' : (i :: A).Nodup :=
      List.nodup_cons.2 ⟨fun h => hifree (List.mem_append_left B h), (List.nodup_append.1 hnd).1⟩
    refine Dll.length_le_of_lt hnd' fun x hx => hi.bound x ?_
    rcases List.mem_cons.1 hx with rfl | hx
    · exact hlive
    · exact hl.live x (List.mem_append_left B hx)
  have hpos : insertPos s (s.vmas i).start s.bound none mm.mmap = (Dll.last none A, B.head?) := by
    refine insertPos_eq hl.chain (fun a ha => ?_) (fun b hb => ?_) hfuel
    · have := hA a ha
      have := (hl.tidy.range (s.vmas a) (List.mem_map_of_mem (List.mem_append_left B ha))).lt
      omega
    · have := hB b hb
      omega
  have hstate : Mm.insertVma s k i = { s with
      links := s.links.splice i (Dll.last none A) B.head?
      mms := Function.update s.mms k (some { mm with mmap := if A = [] then some i else mm.mmap }) } := by
    simp only [Mm.insertVma, hk, hpos, Dll.last_eq_none]
  rw [hstate]
  have hother : ∀ j, j ≠ k → ∀ x ∈ L j, x ≠ i ∧ x ∉ A ++ B := by
    intro j hj x hx
    refine ⟨?_, ?_⟩
    · rintro rfl
      exact hfree j hx
    · rw [← hL]
      exact hi.notMem hj hx
  refine hi.update
    ⟨fun j hj => Function.update_of_ne hj _ _, fun j hj x hx => ?_, fun j hj x hx hx' => ?_, hi.bound⟩
    (Function.update_self ..) ⟨hl.chain.splice hnd hifree, fun x hx => ?_, ?_⟩
  · obtain ⟨hxi, hx'⟩ := hother j hj x hx
    have hla : Dll.last none A ≠ some x := by
      intro he
      rcases Dll.last_mem he with h | h
      · cases h
      · exact hx' (List.mem_append_left B h)
    have hhead : B.head? ≠ some x := fun he => hx' (List.mem_append_right A (List.mem_of_head? he))
    refine ⟨rfl, ?_, ?_, hi.live hx⟩
    · rw [Dll.splice_next, if_neg hla, if_neg hxi]
    · rw [Dll.splice_prev, if_neg hhead, if_neg hxi]
  · obtain ⟨hxi, hx''⟩ := hother j hj x hx
    rcases List.mem_append.1 hx' with h | h
    · exact hx'' (List.mem_append_left B h)
    · rcases List.mem_cons.1 h with h | h
      · exact hxi h
      · exact hx'' (List.mem_append_right A h)
  · rcases List.mem_append.1 hx with h | h
    · exact hl.live x (List.mem_append_left B h)
    · rcases List.mem_cons.1 h with rfl | h
      · exact hlive
      · exact hl.live x (List.mem_append_right A h)
  · have ht := hl.tidy
    rw [List.map_append, tidy_append] at ht
    obtain ⟨htA, htB, hAB⟩ := ht
    rw [List.map_append, List.map_cons, tidy_middle]
    refine ⟨htA, htB, hr, fun w hw => ?_, fun w hw => ?_, hAB⟩
    · obtain ⟨a, ha, rfl⟩ := List.mem_map.1 hw
      exact hA a ha
    · obtain ⟨b, hb, rfl⟩ := List.mem_map.1 hw
      exact hB b hb

end Mm
end Pico
