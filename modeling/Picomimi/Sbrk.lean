import Picomimi.VmaRun
/-!
# Sbrk — the program break as libc and the kernel see it

libc keeps its own copy of the break and takes a negative result of `sys_brk` for a failure.  The kernel reports a failure by
the break as it was, which is not negative: `sbrk` then returns it as the start of memory that was never mapped.
`sbrkAgrees_iff` says when the two agree.
-/
namespace Pico
namespace Mm

open Lib

variable {s s' : State} {mm mm' : MmStruct} {l : List Nat} {v w : Vma} {node : Option Nat} {k i a b addr heapEnd : Nat}
  {inc : Int} {pages : Bool}

/-- `(void *)-1`. -/
def minusOne : Nat := 18446744073709551615

/-- A `u64` whose value as a `long` is negative. -/
def neg (x : Nat) : Bool := 9223372036854775808 ≤ x

/-- `p + n`, for a `char *` and a `long`. -/
def ptrAdd (p : Nat) (n : Int) : Nat := ((p + n) % 18446744073709551616).toNat

/-- `sbrk` from its second statement on; `sbrk` returns a pointer and leaves its copy of the break in `heap_end`. -/
def sbrkFrom (s : State) (k heapEnd : Nat) (inc : Int) (pages : Bool) (node : Option Nat) : Nat × Nat × State :=
  let newEnd := ptrAdd heapEnd inc
  match sysBrk s k newEnd pages node with
  | (result, s) => if neg result then (minusOne, heapEnd, s) else (heapEnd, newEnd, s)

/-- `sbrk` of a process of the address space `k`; a `heap_end` of 0 is `NULL`. -/
def sbrk (s : State) (k heapEnd : Nat) (inc : Int) (pages : Bool) (node : Option Nat) : Nat × Nat × State :=
  if heapEnd = 0 then
    match sysBrk s k 0 pages node with
    | (heapEnd, s) => if neg heapEnd then (minusOne, heapEnd, s) else sbrkFrom s k heapEnd inc pages node
  else sbrkFrom s k heapEnd inc pages node

def brkOf (s : State) (k : Nat) : Option Nat := (s.mms k).map MmStruct.brk

/-- A heap area of the address space covers `[a, b)`. -/
def HeapCovers (s : State) (k a b : Nat) : Prop :=
  ∃ mm, s.mms k = some mm ∧ ∃ v ∈ s.areas mm, has v.flags vmHeap = true ∧ v.start ≤ a ∧ b ≤ v.endAddr

/-- **libc and the kernel agree** on a call that began at the break `old` of libc: memory is returned when the break is behind
it and a heap area covers it, and otherwise the break is where it was. -/
structure SbrkAgrees (s : State) (k old : Nat) (inc : Int) (ret : Nat) (s' : State) : Prop where
  moved : ret ≠ minusOne → brkOf s' k = some (ptrAdd ret inc) ∧ (0 < inc → ret < ptrAdd ret inc ∧ HeapCovers s' k ret (ptrAdd ret inc))
  unmoved : brkOf s' k ≠ some (ptrAdd old inc) → ret = minusOne ∧ brkOf s' k = brkOf s k

/-- `sys_brk` lets the address pass: above the start of the heap and below the stack. -/
def InHeap (mm : MmStruct) (addr : Nat) : Prop :=
  addr ≠ 0 ∧ mm.startBrk ≤ addr ∧ addr ≤ sub64 mm.startStack (128 * 1024)

/-- The break can be moved to `addr`: pages are found when they are asked for. -/
def Moves (mm : MmStruct) (addr : Nat) (pages : Bool) : Prop := InHeap mm addr ∧ (mm.brk < pageAlign addr → pages = true)

instance (mm : MmStruct) (addr : Nat) : Decidable (InHeap mm addr) := inferInstanceAs (Decidable (_ ∧ _ ∧ _))

instance (mm : MmStruct) (addr : Nat) (pages : Bool) : Decidable (Moves mm addr pages) :=
  inferInstanceAs (Decidable (_ ∧ (_ → _)))

/-- The break grows, and from `a` on a heap area comes to cover what it grows over: the one that ends at the old break, or
one there is a node for. -/
def GrowsFrom (s : State) (mm : MmStruct) (addr a : Nat) (pages : Bool) (node : Option Nat) : Prop :=
  InHeap mm addr ∧ mm.brk < pageAlign addr ∧ pages = true ∧
    match heapEndingAt s mm (pageAlign mm.brk) with
    | some i => (s.vmas i).start ≤ a
    | none => ¬NoNode s node ∧ pageAlign mm.brk ≤ a

/-! ## The areas after a call -/

/-- `sys_brk` of an address it does not let pass. -/
theorem sysBrk_of_not (hk : s.mms k = some mm) (h : ¬Moves mm addr pages) : sysBrk s k addr pages node = (mm.brk, s) := by
  unfold sysBrk
  rw [hk]
  dsimp only
  by_cases h0 : addr = 0
  · rw [if_pos h0]
  by_cases hlo : addr < mm.startBrk
  · rw [if_neg h0, if_pos hlo]
  by_cases hhi : sub64 mm.startStack (128 * 1024) < addr
  · rw [if_neg h0, if_neg hlo, if_pos hhi]
  have hin : InHeap mm addr := ⟨h0, Nat.le_of_not_lt hlo, Nat.le_of_not_lt hhi⟩
  obtain ⟨hgrow, hpages⟩ : mm.brk < pageAlign addr ∧ pages ≠ true := by
    by_contra hno
    exact h ⟨hin, fun hlt => by
      by_contra hp
      exact hno ⟨hlt, hp⟩⟩
  rw [if_neg h0, if_neg hlo, if_neg hhi, if_neg (Nat.ne_of_gt hgrow), if_pos hgrow,
    if_pos (Bool.eq_false_iff.2 hpages)]

/-- The state before the break is set, when `sys_brk` lets the address pass. -/
def brkAreas (s : State) (k : Nat) (mm : MmStruct) (addr : Nat) (node : Option Nat) : State :=
  if pageAlign addr = mm.brk then s
  else if mm.brk < pageAlign addr then brkGrow s k mm (pageAlign mm.brk) (pageAlign addr) node
  else brkShrink s mm (pageAlign addr)

theorem sysBrk_of_moves (hk : s.mms k = some mm) (h : Moves mm addr pages) :
    sysBrk s k addr pages node = (addr, setBrk (brkAreas s k mm addr node) k addr) := by
  obtain ⟨⟨h0, hlo, hhi⟩, hpages⟩ := h
  unfold sysBrk brkAreas
  rw [hk]
  dsimp only
  rw [if_neg h0, if_neg (Nat.not_lt.2 hlo), if_neg (Nat.not_lt.2 hhi)]
  by_cases heq : pageAlign addr = mm.brk
  · rw [if_pos heq, if_pos heq]
  by_cases hgrow : mm.brk < pageAlign addr
  · rw [if_neg heq, if_neg heq, if_pos hgrow, if_pos hgrow, hpages hgrow]
    rfl
  · rw [if_neg heq, if_neg heq, if_neg hgrow, if_neg hgrow]

/-- Where `insert_vma` puts a node that starts at `x`. -/
theorem Tidy.split_start {α : Type} (f : α → Vma) (x : Nat) : ∀ {l : List α}, Tidy (l.map f) →
    ∃ A B, l = A ++ B ∧ (∀ y ∈ A, (f y).start ≤ x) ∧ ∀ y ∈ B, x < (f y).start
  | [], _ => ⟨[], [], rfl, List.forall_mem_nil _, List.forall_mem_nil _⟩
  | y :: l, ht => by
    obtain ⟨hr, hl, hyl⟩ := tidy_cons.1 ht
    by_cases hy : (f y).start ≤ x
    · obtain ⟨A, B, rfl, hA, hB⟩ := Tidy.split_start f x hl
      exact ⟨y :: A, B, rfl, List.forall_mem_cons.2 ⟨hy, hA⟩, hB⟩
    · refine ⟨[], y :: l, rfl, List.forall_mem_nil _, List.forall_mem_cons.2 ⟨Nat.lt_of_not_le hy, fun z hz => ?_⟩⟩
      have := hyl (f z) (List.mem_map_of_mem hz)
      have := hr.lt
      omega

theorem ListWf.nodes_eq (hl : ListWf s mm l) (hlive : ∀ j, s.live j = true → j < s.bound) : s.nodes mm = l :=
  hl.chain.nodesFrom_eq (Dll.length_le_of_lt hl.tidy.nodup fun j hj => hlive j (hl.live j hj))

/-- **A fresh node is inserted into the list**, wherever its range lies. -/
theorem ListWf.insert (hl : ListWf s mm l) (hlive : ∀ j, s.live j = true → j < s.bound) (hk : s.mms k = some mm)
    (ha : vmaAlloc s node = (some i, s')) (v : Vma) :
    i ∉ l ∧ (∀ j ∈ l, (insertVma (s'.setVma i v) k i).vmas j = s.vmas j) ∧ (insertVma (s'.setVma i v) k i).vmas i = v ∧
    ∃ A B mm', l = A ++ B ∧ (insertVma (s'.setVma i v) k i).mms k = some mm' ∧
      (insertVma (s'.setVma i v) k i).nodes mm' = A ++ i :: B := by
  cases node with
  | none => cases ha
  | some n =>
    simp only [vmaAlloc] at ha
    by_cases hn : s.live n = true
    · rw [if_pos hn] at ha
      cases ha
    rw [if_neg hn] at ha
    cases ha
    have hfree : i ∉ l := fun h => hn (hl.live i h)
    have hne : ∀ j ∈ l, j ≠ i := fun j hj he => hfree (he ▸ hj)
    generalize hs' : ({ s with
      vmas := Function.update s.vmas i ⟨0, 0, 0, 0, 0⟩
      links := (s.links.setNext i none).setPrev i none
      live := Function.update s.live i true
      bound := max s.bound (i + 1) } : State).setVma i v = t
    have hvmas : ∀ j ∈ l, t.vmas j = s.vmas j := by
      intro j hj
      rw [← hs']
      exact (Function.update_of_ne (hne j hj) _ _).trans (Function.update_of_ne (hne j hj) _ _)
    have hself : t.vmas i = v := by
      rw [← hs']
      exact Function.update_self ..
    have hkt : t.mms k = some mm := by
      rw [← hs']
      exact hk
    have hpath : t.links.Path none mm.mmap l none := by
      refine hl.chain.congr fun j hj => ?_
      rw [← hs']
      exact ⟨Function.update_of_ne (hne j hj) _ _, Function.update_of_ne (hne j hj) _ _⟩
    have hbound : ∀ j ∈ i :: l, j < t.bound := by
      rw [← hs']
      intro j hj
      rcases List.mem_cons.1 hj with rfl | hj
      · exact Nat.lt_of_lt_of_le (Nat.lt_succ_self j) (Nat.le_max_right _ _)
      · exact Nat.lt_of_lt_of_le (hlive j (hl.live j hj)) (Nat.le_max_left _ _)
    have hnd := hl.tidy.nodup
    obtain ⟨A, B, rfl, hA, hB⟩ := hl.tidy.split_start s.vmas v.start
    have hpos : insertPos t (t.vmas i).start t.bound none mm.mmap = (Dll.last none A, B.head?) := by
      refine insertPos_eq hpath (fun a ha => ?_) (fun b hb => ?_) ?_
      · rw [hself, hvmas a (List.mem_append_left B ha)]
        exact hA a ha
      · rw [hself, hvmas b (List.mem_append_right A hb)]
        exact hB b hb
      · have hnd' : (i :: A).Nodup :=
          List.nodup_cons.2 ⟨fun h => hfree (List.mem_append_left B h), (List.nodup_append.1 hnd).1⟩
        exact Dll.length_le_of_lt hnd' fun x hx => hbound x
          (List.mem_cons.2 ((List.mem_cons.1 hx).imp_right fun h => List.mem_append_left B h))
    have hstate : insertVma t k i = { t with
        links := t.links.splice i (Dll.last none A) B.head?
        mms := Function.update t.mms k (some { mm with mmap := if A = [] then some i else mm.mmap }) } := by
      simp only [insertVma, hkt, hpos, Dll.last_eq_none]
    rw [hstate]
    refine ⟨hfree, hvmas, hself, A, B, _, rfl, Function.update_self .., ?_⟩
    have hchain := hpath.splice hnd hfree
    refine hchain.nodesFrom_eq (Dll.length_le_of_lt ?_ fun x hx => hbound x ?_)
    · exact List.nodup_middle.2 (List.nodup_cons.2 ⟨hfree, hnd⟩)
    · simpa [or_left_comm] using hx

/-- The area covers `[a, b)` and is marked as heap. -/
def Vma.HeapOver (v : Vma) (a b : Nat) : Prop := has v.flags vmHeap = true ∧ v.start ≤ a ∧ b ≤ v.endAddr

theorem heapCovers_iff (hk : s.mms k = some mm) : HeapCovers s k a b ↔ ∃ j ∈ s.nodes mm, (s.vmas j).HeapOver a b := by
  constructor
  · rintro ⟨mm', hk', v, hv, h⟩
    cases hk.symm.trans hk'
    obtain ⟨j, hj, rfl⟩ := List.mem_map.1 hv
    exact ⟨j, hj, h⟩
  · rintro ⟨j, hj, h⟩
    exact ⟨mm, hk, _, List.mem_map_of_mem hj, h⟩

/-- The fields of the `mm_struct` other than its list do not matter. -/
theorem heapCovers_setMm (hk : s.mms k = some mm) (hm : mm'.mmap = mm.mmap) :
    HeapCovers (s.setMm k mm') k a b ↔ HeapCovers s k a b := by
  have hk' : (s.setMm k mm').mms k = some mm' := Function.update_self ..
  rw [heapCovers_iff hk, heapCovers_iff hk']
  unfold State.nodes
  rw [hm]
  exact Iff.rfl

theorem heapCovers_setBrk : HeapCovers (setBrk s k addr) k a b ↔ HeapCovers s k a b := by
  unfold setBrk
  split
  · exact Iff.rfl
  · rename_i mm hk
    exact heapCovers_setMm hk rfl

theorem heapCovers_addTotalVm (n : Nat) : HeapCovers (addTotalVm s k n) k a b ↔ HeapCovers s k a b := by
  unfold addTotalVm
  split
  · exact Iff.rfl
  · rename_i mm hk
    exact heapCovers_setMm hk rfl

/-- **The end of a heap area is moved** to `e`: what ends at or below `e` is covered by it from its start on. -/
theorem heapCovers_setEnd (hk : s.mms k = some mm) (hi : i ∈ s.nodes mm) (hheap : has (s.vmas i).flags vmHeap = true)
    {e : Nat} (hb : b ≤ e) : HeapCovers (s.setVma i { s.vmas i with endAddr := e }) k a b ↔
      (s.vmas i).start ≤ a ∨ ∃ j ∈ s.nodes mm, j ≠ i ∧ (s.vmas j).HeapOver a b := by
  have hk' : (s.setVma i { s.vmas i with endAddr := e }).mms k = some mm := hk
  have hself : (s.setVma i { s.vmas i with endAddr := e }).vmas i = { s.vmas i with endAddr := e } :=
    Function.update_self ..
  have hne : ∀ j, j ≠ i → (s.setVma i { s.vmas i with endAddr := e }).vmas j = s.vmas j :=
    fun j hj => Function.update_of_ne hj _ _
  rw [heapCovers_iff hk']
  constructor
  · rintro ⟨j, hj, h⟩
    by_cases hji : j = i
    · subst hji
      rw [hself] at h
      exact .inl h.2.1
    · rw [hne j hji] at h
      exact .inr ⟨j, hj, hji, h⟩
  · rintro (h | ⟨j, hj, hji, h⟩)
    · refine ⟨i, hi, ?_⟩
      rw [hself]
      exact ⟨hheap, h, hb⟩
    · refine ⟨j, hj, ?_⟩
      rw [hne j hji]
      exact h

theorem heapCovers_brkGrow (hl : ListWf s mm l) (hlive : ∀ j, s.live j = true → j < s.bound) (hk : s.mms k = some mm)
    {growStart newBrk : Nat} (hb : b ≤ newBrk) :
    HeapCovers (brkGrow s k mm growStart newBrk node) k a b ↔ HeapCovers s k a b ∨
      match heapEndingAt s mm growStart with
      | some i => (s.vmas i).start ≤ a
      | none => ¬NoNode s node ∧ growStart ≤ a := by
  unfold brkGrow
  cases hat : heapEndingAt s mm growStart with
  | some i =>
    have hi : i ∈ s.nodes mm := List.mem_of_find?_eq_some hat
    obtain ⟨hheap, hend⟩ : has (s.vmas i).flags vmHeap = true ∧ (s.vmas i).endAddr = growStart := by
      simpa using List.find?_some hat
    dsimp only
    rw [heapCovers_setEnd hk hi hheap hb, heapCovers_iff hk, or_comm]
    constructor
    · rintro (⟨j, hj, -, h⟩ | h)
      · exact .inl ⟨j, hj, h⟩
      · exact .inr h
    · rintro (⟨j, hj, h⟩ | h)
      · by_cases hji : j = i
        · exact .inr (hji ▸ h.2.1)
        · exact .inl ⟨j, hj, hji, h⟩
      · exact .inr h
  | none =>
    dsimp only
    rcases ha : vmaAlloc s node with ⟨_ | i, s'⟩
    · rw [vmaAlloc_none ha]
      have hno : NoNode s node := congrArg Prod.fst ha
      exact (or_iff_left fun h => h.1 hno).symm
    · have hyes : ¬NoNode s node := fun hno => by
        unfold NoNode at hno
        rw [ha] at hno
        cases hno
      dsimp only
      rw [heapCovers_addTotalVm]
      obtain ⟨hfree, hvmas, hself, A, B, mm', rfl, hk', hnodes⟩ := hl.insert hlive hk ha
        ⟨growStart, newBrk, vmRead ||| vmWrite ||| vmHeap, vmHeap, 0⟩
      rw [heapCovers_iff hk', heapCovers_iff hk, hnodes, hl.nodes_eq hlive]
      have hheap : has (vmRead ||| vmWrite ||| vmHeap) vmHeap = true := by decide
      constructor
      · rintro ⟨j, hj, h⟩
        by_cases hji : j = i
        · subst hji
          rw [hself] at h
          exact .inr ⟨hyes, h.2.1⟩
        · have hj' : j ∈ A ++ B := by simpa [hji] using hj
          rw [hvmas j hj'] at h
          exact .inl ⟨j, hj', h⟩
      · rintro (⟨j, hj, h⟩ | ⟨-, h⟩)
        · refine ⟨j, ?_, ?_⟩
          · rcases List.mem_append.1 hj with hj | hj
            · exact List.mem_append_left _ hj
            · exact List.mem_append_right _ (List.mem_cons_of_mem i hj)
          · rw [hvmas j hj]
            exact h
        · refine ⟨i, List.mem_append_right _ List.mem_cons_self, ?_⟩
          rw [hself]
          exact ⟨hheap, h, hb⟩

theorem heapCovers_brkShrink (hk : s.mms k = some mm) {shrinkStart : Nat} (hb : b ≤ shrinkStart) :
    HeapCovers (brkShrink s mm shrinkStart) k a b ↔ HeapCovers s k a b := by
  unfold brkShrink
  cases hat : heapEndingAbove s mm shrinkStart with
  | none => exact Iff.rfl
  | some i =>
    have hi : i ∈ s.nodes mm := List.mem_of_find?_eq_some hat
    obtain ⟨hheap, hend⟩ : has (s.vmas i).flags vmHeap = true ∧ shrinkStart < (s.vmas i).endAddr := by
      simpa using List.find?_some hat
    have hcut : HeapCovers (s.setVma i { s.vmas i with endAddr := shrinkStart }) k a b ↔ HeapCovers s k a b := by
      rw [heapCovers_setEnd hk hi hheap hb, heapCovers_iff hk]
      constructor
      · rintro (h | ⟨j, hj, -, h⟩)
        · exact ⟨i, hi, hheap, h, by omega⟩
        · exact ⟨j, hj, h⟩
      · rintro ⟨j, hj, h⟩
        by_cases hji : j = i
        · exact .inl (hji ▸ h.2.1)
        · exact .inr ⟨j, hj, hji, h⟩
    dsimp only
    split
    · exact hcut
    · exact hcut

theorem le_pageAlign (h : addr + 4095 < word64) : addr ≤ pageAlign addr := (alignUp_bounds (by decide) h).1

/-- **What a heap area covers after `sys_brk`**, below the address it was given. -/
theorem heapCovers_sysBrk (hl : ListWf s mm l) (hlive : ∀ j, s.live j = true → j < s.bound) (hk : s.mms k = some mm)
    (haddr : addr + 4095 < word64) (hb : b ≤ addr) : HeapCovers (sysBrk s k addr pages node).2 k a b ↔
      HeapCovers s k a b ∨ GrowsFrom s mm addr a pages node := by
  have hle := le_pageAlign haddr
  by_cases hmoves : Moves mm addr pages
  · rw [sysBrk_of_moves hk hmoves]
    dsimp only
    rw [heapCovers_setBrk]
    unfold brkAreas
    by_cases heq : pageAlign addr = mm.brk
    · rw [if_pos heq]
      exact (or_iff_left fun h => by have := h.2.1; omega).symm
    by_cases hgrow : mm.brk < pageAlign addr
    · rw [if_neg heq, if_pos hgrow, heapCovers_brkGrow hl hlive hk (Nat.le_trans hb hle)]
      unfold GrowsFrom
      rw [and_iff_right hmoves.1, and_iff_right hgrow, and_iff_right (hmoves.2 hgrow)]
    · rw [if_neg heq, if_neg hgrow, heapCovers_brkShrink hk (Nat.le_trans hb hle)]
      exact (or_iff_left fun h => hgrow h.2.1).symm
  · rw [sysBrk_of_not hk hmoves]
    exact (or_iff_left fun h => hmoves ⟨h.1, fun _ => h.2.2.1⟩).symm

theorem insertVma_isSome (hk : s.mms k = some mm) (i : Nat) : ((insertVma s k i).mms k).isSome = true := by
  simp [insertVma, hk]

theorem addTotalVm_isSome (n : Nat) (h : (s.mms k).isSome = true) : ((addTotalVm s k n).mms k).isSome = true := by
  unfold addTotalVm
  split
  · exact h
  · simp [State.setMm]

theorem brkAreas_isSome (addr : Nat) (node : Option Nat) (hk : s.mms k = some mm) : ((brkAreas s k mm addr node).mms k).isSome = true := by
  have h : (s.mms k).isSome = true := congrArg Option.isSome hk
  unfold brkAreas brkGrow brkShrink
  split
  · exact h
  · split
    · split
      · exact h
      · rcases ha : vmaAlloc s node with ⟨_ | i, s'⟩
        · rw [vmaAlloc_none ha]
          exact h
        · have hk' : s'.mms k = some mm := by
            cases node with
            | none => cases ha
            | some n =>
              simp only [vmaAlloc] at ha
              split at ha
              · cases ha
              · cases ha
                exact hk
          exact addTotalVm_isSome _ (insertVma_isSome (s := s'.setVma i _) hk' i)
    · split
      · dsimp only
        split
        · exact h
        · exact h
      · exact h

/-- The break after `sys_brk`, and what it returns: the same. -/
theorem sysBrk_fst (addr : Nat) (pages : Bool) (node : Option Nat) (hk : s.mms k = some mm) :
    (sysBrk s k addr pages node).1 = if Moves mm addr pages then addr else mm.brk := by
  split
  · rename_i h
    rw [sysBrk_of_moves hk h]
  · rename_i h
    rw [sysBrk_of_not hk h]

theorem brkOf_sysBrk (addr : Nat) (pages : Bool) (node : Option Nat) (hk : s.mms k = some mm) :
    brkOf (sysBrk s k addr pages node).2 k = some (sysBrk s k addr pages node).1 := by
  by_cases h : Moves mm addr pages
  · rw [sysBrk_of_moves hk h]
    obtain ⟨mm', hk'⟩ := Option.isSome_iff_exists.1 (brkAreas_isSome addr node hk)
    simp [setBrk, brkOf, hk', State.setMm]
  · rw [sysBrk_of_not hk h]
    simp [brkOf, hk]

/-! ## The call of libc -/

/-- libc and the kernel agree on the call that began at `old`: libc takes what `sys_brk` returns for a failure; or the break
comes to be where libc puts its copy, and memory that is asked for is covered. -/
def SbrkOk (s : State) (mm : MmStruct) (k old : Nat) (inc : Int) (pages : Bool) (node : Option Nat) : Prop :=
  old = minusOne ∨ neg (if Moves mm (ptrAdd old inc) pages then ptrAdd old inc else mm.brk) = true ∨
    ((Moves mm (ptrAdd old inc) pages ∨ mm.brk = ptrAdd old inc) ∧
      (0 < inc → old < ptrAdd old inc ∧
        (HeapCovers s k old (ptrAdd old inc) ∨ GrowsFrom s mm (ptrAdd old inc) old pages node)))

theorem sbrkFrom_iff (hl : ListWf s mm l) (hlive : ∀ j, s.live j = true → j < s.bound) (hk : s.mms k = some mm)
    (old : Nat) (inc : Int) (pages : Bool) (node : Option Nat) :
    SbrkAgrees s k old inc (sbrkFrom s k old inc pages node).1 (sbrkFrom s k old inc pages node).2.2 ↔
      SbrkOk s mm k old inc pages node := by
  have hbrk := brkOf_sysBrk (ptrAdd old inc) pages node hk
  have hfst := sysBrk_fst (ptrAdd old inc) pages node hk
  have hcov : neg (if Moves mm (ptrAdd old inc) pages then ptrAdd old inc else mm.brk) ≠ true →
      Moves mm (ptrAdd old inc) pages ∨ mm.brk = ptrAdd old inc →
      (HeapCovers (sysBrk s k (ptrAdd old inc) pages node).2 k old (ptrAdd old inc) ↔
        HeapCovers s k old (ptrAdd old inc) ∨ GrowsFrom s mm (ptrAdd old inc) old pages node) := by
    intro hpos hat
    refine heapCovers_sysBrk hl hlive hk ?_ (Nat.le_refl _)
    have hlow : ptrAdd old inc < 9223372036854775808 := by
      by_cases hm : Moves mm (ptrAdd old inc) pages
      · rw [if_pos hm] at hpos
        simpa [neg] using hpos
      · rw [if_neg hm, hat.resolve_left hm] at hpos
        simpa [neg] using hpos
    unfold word64
    omega
  unfold sbrkFrom SbrkOk
  dsimp only
  rw [← hfst] at hcov ⊢
  generalize sysBrk s k (ptrAdd old inc) pages node = r at hbrk hfst hcov ⊢
  obtain ⟨result, t⟩ := r
  dsimp only at hbrk hfst hcov ⊢
  have hmoved : brkOf t k = some (ptrAdd old inc) ↔ Moves mm (ptrAdd old inc) pages ∨ mm.brk = ptrAdd old inc := by
    rw [hbrk, Option.some.injEq, hfst]
    by_cases hm : Moves mm (ptrAdd old inc) pages <;> simp [hm]
  have hstay : brkOf t k ≠ some (ptrAdd old inc) → brkOf t k = brkOf s k := by
    rw [hbrk, hfst]
    by_cases hm : Moves mm (ptrAdd old inc) pages
    · simp [hm]
    · simp [hm, brkOf, hk]
  by_cases hneg : neg result = true
  · rw [if_pos hneg]
    exact iff_of_true ⟨fun h => absurd rfl h, fun h => ⟨rfl, hstay h⟩⟩ (.inr (.inl hneg))
  rw [if_neg hneg]
  by_cases hold : old = minusOne
  · exact iff_of_true ⟨fun h => absurd hold h, fun h => ⟨hold, hstay h⟩⟩ (.inl hold)
  rw [or_iff_right hold, or_iff_right hneg, ← hmoved]
  constructor
  · intro h
    obtain ⟨hb, hc⟩ := h.moved hold
    exact ⟨hb, fun hinc => ⟨(hc hinc).1, (hcov hneg (hmoved.1 hb)).1 (hc hinc).2⟩⟩
  · rintro ⟨hb, hc⟩
    exact ⟨fun _ => ⟨hb, fun hinc => ⟨(hc hinc).1, (hcov hneg (hmoved.1 hb)).2 (hc hinc).2⟩⟩, fun h => absurd hb h⟩

/-- **When `sbrk` and the kernel's break agree**, for every copy of the break libc may have: its own, or on its first call the
kernel's. -/
theorem sbrkAgrees_iff (hl : ListWf s mm l) (hlive : ∀ j, s.live j = true → j < s.bound) (hk : s.mms k = some mm)
    (heapEnd : Nat) (inc : Int) (pages : Bool) (node : Option Nat) :
    SbrkAgrees s k (if heapEnd = 0 then mm.brk else heapEnd) inc (sbrk s k heapEnd inc pages node).1
        (sbrk s k heapEnd inc pages node).2.2 ↔
      (heapEnd = 0 ∧ neg mm.brk = true) ∨ SbrkOk s mm k (if heapEnd = 0 then mm.brk else heapEnd) inc pages node := by
  unfold sbrk
  by_cases h0 : heapEnd = 0
  · have hnot : ¬Moves mm 0 pages := fun h => h.1.1 rfl
    rw [if_pos h0, if_pos h0, sysBrk_of_not hk hnot]
    dsimp only
    by_cases hneg : neg mm.brk = true
    · rw [if_pos hneg]
      exact iff_of_true ⟨fun h => absurd rfl h, fun _ => ⟨rfl, rfl⟩⟩ (.inl ⟨h0, hneg⟩)
    · rw [if_neg hneg, sbrkFrom_iff hl hlive hk]
      exact (or_iff_right fun h => hneg h.2).symm
  · rw [if_neg h0, if_neg h0, sbrkFrom_iff hl hlive hk]
    exact (or_iff_right fun h => h0 h.1).symm

/-- The first page of the heap, and a node for its area. -/
theorem sbrkAgrees_page : SbrkAgrees bootState 0 0x600000 100 (sbrk bootState 0 0 100 true (some 0)).1
    (sbrk bootState 0 0 100 true (some 0)).2.2 := by
  have hl : ListWf bootState ⟨none, 0x600000, 0x600000, 0x7FFFFF000000, 0⟩ [] :=
    ⟨rfl, List.forall_mem_nil _, tidy_nil⟩
  refine (sbrkAgrees_iff hl bootState_init.2 rfl 0 100 true (some 0)).2
    (.inr (.inr (.inr ⟨.inl (by decide +kernel), fun _ => ⟨by decide +kernel, .inr ?_⟩⟩)))
  exact ⟨by decide +kernel, by decide +kernel, rfl, by decide +kernel, by decide +kernel⟩

/-- **A request the kernel refuses** is answered by the break as it was, and libc returns it as the start of new memory. -/
theorem not_sbrkAgrees : (sbrk bootState 0 0x600000 0x800000000000 true (some 0)).1 = 0x600000 ∧
    ¬SbrkAgrees bootState 0 0x600000 0x800000000000 (sbrk bootState 0 0x600000 0x800000000000 true (some 0)).1
      (sbrk bootState 0 0x600000 0x800000000000 true (some 0)).2.2 := by
  refine ⟨by decide +kernel, fun h => ?_⟩
  have hb := (h.moved (by decide +kernel)).1
  exact absurd hb (by decide +kernel)

end Mm
end Pico
