import Picomimi.VmaStep
/-!
# VmaRun — `sys_brk`, page faults and `mm_copy`; the VMA lists over whole runs

The remaining calls, and the run: from address spaces without areas, every run whose steps all meet `StepOk` leaves every
list well formed.
-/
namespace Pico
namespace Mm

open Lib

variable {s s' : State} {L : Nat → List Nat} {k i : Nat} {mm : MmStruct} {A B : List Nat} {v : Vma} {node : Option Nat}

/-! ## `sys_brk` -/

theorem pageAlign_le_of_lt {a b : Nat} (hd : pageSize ∣ b) (hb : b < word64) (h : a < b) : pageAlign a ≤ b := by
  obtain ⟨q, rfl⟩ := hd
  have hlt : a + (pageSize - 1) < word64 := by
    unfold pageSize word64 at *
    omega
  rw [pageAlign, alignUp, add64_of_lt hlt]
  unfold pageSize at *
  omega

theorem Inv.mem_nodes (hi : Inv s L) (hk : s.mms k = some mm) (h : i ∈ s.nodes mm) : ∃ A B, L k = A ++ i :: B := by
  rw [hi.nodes_eq hk] at h
  exact List.append_of_mem h

theorem Inv.brkGrow {growStart newBrk : Nat} (hi : Inv s L) (hk : s.mms k = some mm) (hdg : pageSize ∣ growStart)
    (hd : pageSize ∣ newBrk) (hlt : newBrk < word64) (hle : growStart ≤ newBrk)
    (hok : GrowOk s mm growStart newBrk node) : ∃ L', Inv (Mm.brkGrow s k mm growStart newBrk node) L' := by
  unfold Mm.brkGrow
  unfold GrowOk at hok
  cases hf : heapEndingAt s mm growStart with
  | some i =>
    rw [hf] at hok
    have hend := List.find?_some hf
    simp only [Bool.decide_and, Bool.and_eq_true, decide_eq_true_eq] at hend
    obtain ⟨-, hend⟩ := hend
    obtain ⟨A, B, hL⟩ := hi.mem_nodes hk (List.mem_of_find?_eq_some hf)
    have ht := hi.split_mem hk hL
    obtain ⟨-, hB, hr, hAi, hiB, -⟩ := tidy_middle.1 ht
    have hlt' := hr.lt
    refine ⟨L, hi.setVma hk hL (ht.replace ⟨by simp only; omega, hr.dvd_start, hd, hlt⟩ hAi fun w hw => ?_)⟩
    have hap : Apart (s.areas mm) growStart newBrk := hok
    rw [hi.areas_eq hk, hL, List.map_append, List.map_cons] at hap
    rcases hap w (by simp [hw]) with h | h
    · have := hiB w hw
      have := (hB.range w hw).lt
      omega
    · exact h
  | none =>
    rw [hf] at hok
    simp only
    rcases ha : Mm.vmaAlloc s node with ⟨_ | i, s'⟩
    · rw [vmaAlloc_none ha]
      exact ⟨L, hi⟩
    · rcases hok with hno | ⟨hlt', hap⟩
      · rw [noNode_iff.1 hno] at ha
        cases ha
      · obtain ⟨L', hL'⟩ := hi.place hk ha (v := ⟨growStart, newBrk, vmRead ||| vmWrite ||| vmHeap, vmHeap, 0⟩)
          ⟨hlt', hdg, hd, hlt, hap⟩
        exact ⟨L', hL'.addTotalVm k _⟩

theorem Inv.brkShrink {shrinkStart : Nat} (hi : Inv s L) (hk : s.mms k = some mm) (hd : pageSize ∣ shrinkStart)
    (hok : ShrinkOk s mm shrinkStart) : Inv (Mm.brkShrink s mm shrinkStart) L := by
  unfold Mm.brkShrink
  cases hf : heapEndingAbove s mm shrinkStart with
  | none => exact hi
  | some i =>
    have hend := List.find?_some hf
    simp only [Bool.decide_and, Bool.and_eq_true, decide_eq_true_eq] at hend
    obtain ⟨-, hend⟩ := hend
    obtain ⟨A, B, hL⟩ := hi.mem_nodes hk (List.mem_of_find?_eq_some hf)
    have hr := hi.rangeWf hk (i := i) (by rw [hL]; simp)
    have hstart := hok i hf
    have hlt := hr.end_lt
    simp only [if_neg (Nat.not_le.2 hstart)]
    exact hi.shrink hk hL (v := { s.vmas i with endAddr := shrinkStart })
      ⟨hstart, hr.dvd_start, hd, by simp only; omega⟩ (Nat.le_refl _) (Nat.le_of_lt hend)

theorem Inv.sysBrk {addr : Nat} {pages : Bool} (hi : Inv s L) (hok : BrkOk s k addr pages node) :
    ∃ L', Inv (Mm.sysBrk s k addr pages node).2 L' := by
  unfold Mm.sysBrk
  cases hk : s.mms k with
  | none => exact ⟨L, hi⟩
  | some mm =>
    simp only
    by_cases h0 : addr = 0
    · rw [if_pos h0]
      exact ⟨L, hi⟩
    by_cases hlow : addr < mm.startBrk
    · rw [if_neg h0, if_pos hlow]
      exact ⟨L, hi⟩
    by_cases hhigh : sub64 mm.startStack (128 * 1024) < addr
    · rw [if_neg h0, if_neg hlow, if_pos hhigh]
      exact ⟨L, hi⟩
    rw [if_neg h0, if_neg hlow, if_neg hhigh]
    by_cases hsame : pageAlign addr = mm.brk
    · rw [if_pos hsame]
      exact ⟨L, hi.setBrk k addr⟩
    rw [if_neg hsame]
    have hd : pageSize ∣ pageAlign addr := dvd_alignUp _ _
    rcases hok mm hk with h | h | h | h | ⟨hgt, h⟩ | ⟨hlt, h⟩
    · exact absurd h h0
    · exact absurd h hlow
    · exact absurd h hhigh
    · exact absurd h hsame
    · rw [if_pos hgt]
      by_cases hp : pages = false
      · rw [if_pos hp]
        exact ⟨L, hi⟩
      · rw [if_neg hp]
        have hlt := pageAlign_lt addr
        obtain ⟨L', hL'⟩ := hi.brkGrow hk (dvd_alignUp _ _) hd hlt (pageAlign_le_of_lt hd hlt hgt)
          (h.resolve_left hp)
        exact ⟨L', hL'.setBrk k addr⟩
    · rw [if_neg (Nat.not_lt.2 (Nat.le_of_lt hlt))]
      exact ⟨L, (hi.brkShrink hk hd h).setBrk k addr⟩

/-! ## Page faults -/

/-- **`find_vma` returns the area the address is in**, if there is one. -/
theorem findVmaFrom_of_mem {addr : Nat} : ∀ {l : List Nat} {best : Option Nat},
    (∃ i ∈ l, (s.vmas i).start ≤ addr ∧ addr < (s.vmas i).endAddr) →
    ∃ i, findVmaFrom s addr best l = some i ∧ (s.vmas i).start ≤ addr ∧ addr < (s.vmas i).endAddr
  | [], best, h => by
    obtain ⟨i, hi, -⟩ := h
    cases hi
  | j :: l, best, h => by
    by_cases hj : (s.vmas j).start ≤ addr ∧ addr < (s.vmas j).endAddr
    · exact ⟨j, by rw [findVmaFrom, if_pos hj], hj⟩
    · obtain ⟨i, hi, hin⟩ := h
      have hil : i ∈ l := by
        rcases List.mem_cons.1 hi with rfl | hi
        · exact absurd hin hj
        · exact hi
      rw [findVmaFrom, if_neg hj]
      split
      · exact findVmaFrom_of_mem ⟨i, hil, hin⟩
      · exact findVmaFrom_of_mem ⟨i, hil, hin⟩

/-- What it returns is an area of the list. -/
theorem findVmaFrom_mem {addr : Nat} : ∀ {l : List Nat} {best : Option Nat}, findVmaFrom s addr best l = some i →
    best = some i ∨ i ∈ l
  | [], _, h => .inl h
  | j :: l, best, h => by
    rw [findVmaFrom] at h
    split at h
    · cases h
      exact .inr List.mem_cons_self
    · split at h
      · rcases findVmaFrom_mem h with h | h
        · cases h
          exact .inr List.mem_cons_self
        · exact .inr (List.mem_cons_of_mem j h)
      · rcases findVmaFrom_mem h with h | h
        · exact .inl h
        · exact .inr (List.mem_cons_of_mem j h)

theorem Inv.handleStackGrowth {faultAddr : Nat} {page : Bool} (hi : Inv s L) (hk : s.mms k = some mm)
    (hok : ∀ i ∈ stackVma s mm faultAddr, Apart (s.areas mm) (alignDown faultAddr pageSize) (s.vmas i).start) :
    Inv (Mm.handleStackGrowth s mm faultAddr page).2 L := by
  unfold Mm.handleStackGrowth
  cases hf : stackVma s mm faultAddr with
  | none => exact hi
  | some i =>
    have hp := List.find?_some hf
    simp only [Bool.decide_and, Bool.and_eq_true, decide_eq_true_eq] at hp
    obtain ⟨-, hlt, -⟩ := hp
    obtain ⟨A, B, hL⟩ := hi.mem_nodes hk (List.mem_of_find?_eq_some hf)
    have ht := hi.split_mem hk hL
    obtain ⟨hA, -, hr, hAi, hiB, -⟩ := tidy_middle.1 ht
    have hle := alignDown_le faultAddr pageSize
    have hlt' := hr.lt
    refine hi.setVma hk hL (ht.replace ⟨by simp only; omega, dvd_alignDown _ _, hr.dvd_end, hr.end_lt⟩
      (fun w hw => ?_) hiB)
    have hap := hok i hf
    rw [hi.areas_eq hk, hL, List.map_append, List.map_cons] at hap
    rcases hap w (List.mem_append_left _ hw) with h | h
    · exact h
    · have := hAi w hw
      have := (hA.range w hw).lt
      omega

theorem Inv.handleCow {page : Bool} (hi : Inv s L) (hk : s.mms k = some mm) (hL : L k = A ++ i :: B) :
    Inv (Mm.handleCow s i page).2 L := by
  unfold Mm.handleCow
  split
  · have hr := hi.rangeWf hk (i := i) (by rw [hL]; simp)
    exact hi.shrink hk hL ⟨hr.lt, hr.dvd_start, hr.dvd_end, hr.end_lt⟩ (Nat.le_refl _) (Nat.le_refl _)
  · exact hi

theorem Inv.doPageFault {faultAddr : Nat} {present write user page : Bool} (hi : Inv s L)
    (hok : PageFaultOk s k faultAddr user) : Inv (Mm.doPageFault s k faultAddr present write user page).2 L := by
  unfold Mm.doPageFault
  by_cases hu : user = false ∨ faultAddr < 0x1000
  · rw [if_pos hu]
    exact hi
  rw [if_neg hu]
  cases hk : s.mms k with
  | none => exact hi
  | some mm =>
    obtain ⟨hu1, hu2⟩ := not_or.1 hu
    have hok' := ((hok.resolve_left hu1).resolve_left hu2) mm hk
    have hgrow : (∀ i, findVma s mm faultAddr = some i →
        faultAddr < (s.vmas i).start ∨ (s.vmas i).endAddr ≤ faultAddr) →
        Inv (Mm.handleStackGrowth s mm faultAddr page).2 L := by
      intro hout
      refine hi.handleStackGrowth hk (hok'.resolve_left ?_)
      rintro ⟨v, hv, h1, h2⟩
      obtain ⟨j, hj, rfl⟩ := List.mem_map.1 hv
      obtain ⟨i, hfi, h3, h4⟩ := @findVmaFrom_of_mem s faultAddr (s.nodes mm) none ⟨j, hj, h1, h2⟩
      rcases hout i hfi with h | h <;> omega
    simp only
    cases hf : findVma s mm faultAddr with
    | none => exact hgrow fun i h => by rw [hf] at h; cases h
    | some i =>
      simp only
      by_cases hout : faultAddr < (s.vmas i).start ∨ (s.vmas i).endAddr ≤ faultAddr
      · rw [if_pos hout]
        refine hgrow fun j h => ?_
        rw [hf] at h
        cases h
        exact hout
      · rw [if_neg hout]
        obtain ⟨A, B, hL⟩ := hi.mem_nodes hk ((findVmaFrom_mem hf).resolve_left (by simp))
        split
        · split
          · exact hi.handleCow hk hL
          · exact hi
        · split
          · exact hi
          · split <;> exact hi

/-! ## `mm_copy` -/

/-- Half-way through a copy: the nodes copied so far (`F`) are on no list and link only to each other. -/
structure Copying (s : State) (L : Nat → List Nat) (F : List Nat) (head tail : Option Nat) : Prop where
  inv : Inv s L
  free : ∀ c ∈ F, ∀ k, c ∉ L k
  closed : ∀ c ∈ F, ∀ d, s.links.next c = some d → d ∈ F
  head : ∀ c ∈ head, c ∈ F
  tail : ∀ c ∈ tail, c ∈ F

/-- A link between nodes that are on no list. -/
theorem Inv.setNextFree (hi : Inv s L) (hfree : ∀ k, i ∉ L k) (q : Option Nat) :
    Inv { s with links := s.links.setNext i q } L := by
  refine ⟨fun k mm hk => (hi.lists k mm hk).congr fun j hj => ⟨rfl, Function.update_of_ne ?_ _ _, rfl, hi.live hj⟩,
    hi.absent, hi.bound, hi.apart⟩
  rintro rfl
  exact hfree k hj

theorem Inv.vmaFree (hi : Inv s L) (hfree : ∀ k, i ∉ L k) : Inv (Mm.vmaFree s i) L := by
  refine ⟨fun k mm hk => (hi.lists k mm hk).congr fun j hj => ⟨rfl, rfl, rfl, ?_⟩, hi.absent, fun j hj => ?_, hi.apart⟩
  · have hji : j ≠ i := by
      rintro rfl
      exact hfree k hj
    exact (Function.update_of_ne hji _ _).trans (hi.live hj)
  · simp only [Mm.vmaFree, Function.update_apply] at hj
    split at hj
    · cases hj
    · exact hi.bound j hj

/-- **A copy that is given up** frees nothing else. -/
theorem Copying.mmFreeVmas {F : List Nat} : ∀ {fuel : Nat} {s : State} {head tail : Option Nat},
    Copying s L F head tail → Inv (Mm.mmFreeVmas fuel s head) L
  | 0, _, _, _, h => h.inv
  | _ + 1, _, none, _, h => h.inv
  | fuel + 1, s, some i, tail, h => by
    have hF := h.head i rfl
    have hrest : Copying (Mm.vmaFree s i) L F (s.links.next i) none :=
      ⟨h.inv.vmaFree (h.free i hF), h.free, h.closed, fun d hd => h.closed i hF d hd, fun c hc => by cases hc⟩
    exact hrest.mmFreeVmas

theorem vmaAlloc_links {c : Nat} (ha : vmaAlloc s node = (some c, s')) :
    s'.links.next c = none ∧ s'.links.prev c = none := by
  cases node with
  | none => cases ha
  | some m =>
    simp only [vmaAlloc] at ha
    split at ha
    · cases ha
    · cases ha
      exact ⟨Function.update_self .., Function.update_self ..⟩

/-- **One more node copied.** -/
theorem Copying.turn {F : List Nat} {head tail : Option Nat} {c : Nat} (h : Copying s L F head tail)
    (ha : vmaAlloc s node = (some c, s')) (v : Vma) :
    Copying (linkCopy (s'.setVma c v) tail c) L (c :: F) (if tail = none then some c else head) (some c) ∧
      (linkCopy (s'.setVma c v) tail c).mms = s.mms ∧
      ∀ d, s.live d = true → (linkCopy (s'.setVma c v) tail c).live d = true := by
  obtain ⟨hi', hmms, hfree, -, -⟩ := h.inv.vmaAlloc ha
  obtain ⟨hnc, hne⟩ : s'.links.next c = none ∧ ∀ d, d ≠ c → s'.links.next d = s.links.next d := by
    cases node with
    | none => cases ha
    | some m =>
      simp only [vmaAlloc] at ha
      split at ha
      · cases ha
      · cases ha
        exact ⟨Function.update_self .., fun d hd => Function.update_of_ne hd _ _⟩
  have hlive := fun d hd => vmaAlloc_live (j := d) ha hd
  have hfree' : ∀ d ∈ c :: F, ∀ k, d ∉ L k := by
    intro d hd
    rcases List.mem_cons.1 hd with rfl | hd
    · exact hfree
    · exact h.free d hd
  have hclosed : ∀ d ∈ c :: F, ∀ e, s'.links.next d = some e → e ∈ c :: F := by
    intro d hd e he
    by_cases hdc : d = c
    · subst hdc
      cases hnc.symm.trans he
    · have hdF : d ∈ F := (List.mem_cons.1 hd).resolve_left hdc
      exact List.mem_cons_of_mem c (h.closed d hdF e ((hne d hdc).symm.trans he))
  have hself : ∀ d ∈ (some c : Option Nat), d ∈ c :: F := by
    rintro d ⟨⟩
    exact List.mem_cons_self
  cases tail with
  | none => exact ⟨⟨hi'.setFree hfree v, hfree', hclosed, hself, hself⟩, hmms, hlive⟩
  | some t =>
    have ht : t ∈ c :: F := List.mem_cons_of_mem c (h.tail t rfl)
    refine ⟨⟨(hi'.setFree hfree v).setNextFree (hfree' t ht) _, hfree', fun d hd e he => ?_,
      fun d hd => List.mem_cons_of_mem c (h.head d hd), hself⟩, hmms, hlive⟩
    simp only [linkCopy, State.setVma, Dll.setNext, Function.update_apply] at he
    split at he
    · cases he
      exact List.mem_cons_self
    · exact hclosed d hd e he

/-- **A copy that fails** keeps every list. -/
theorem copyVmas_inv {nodes : Nat → Option Nat} : ∀ {fuel : Nat} {s s' : State} {F : List Nat}
    {old head tail : Option Nat}, Copying s L F head tail → copyVmas nodes fuel s old head tail = (none, s') → Inv s' L
  | 0, _, _, _, _, _, _, _, h => by cases h
  | _ + 1, _, _, _, none, _, _, _, h => by cases h
  | fuel + 1, s, s', F, some i, head, tail, hc, h => by
    simp only [copyVmas] at h
    rcases ha : vmaAlloc s (nodes i) with ⟨_ | c, s1⟩
    · rw [ha] at h
      cases h
      rw [vmaAlloc_none ha]
      exact hc.mmFreeVmas
    · rw [ha] at h
      exact copyVmas_inv (hc.turn ha (s1.vmas i)).1 h

/-- **A copy fails when one of its allocations does.** -/
theorem copyVmas_none {nodes : Nat → Option Nat} : ∀ {B A : List Nat} {fuel : Nat} {s : State} {F : List Nat}
    {head tail : Option Nat}, Copying s L F head tail → s.mms k = some mm → L k = A ++ B → B.length ≤ fuel →
    (∃ i ∈ B, NoNode s (nodes i)) → (copyVmas nodes fuel s B.head? head tail).1 = none
  | [], _, _, _, _, _, _, _, _, _, _, h => by
    obtain ⟨i, hi, -⟩ := h
    cases hi
  | i :: B, A, 0, _, _, _, _, _, _, _, hf, _ => absurd hf (by simp)
  | i :: B, A, fuel + 1, s, F, head, tail, hc, hk, hL, hf, h => by
    simp only [List.head?_cons, copyVmas]
    rcases ha : vmaAlloc s (nodes i) with ⟨_ | c, s1⟩
    · rfl
    · obtain ⟨hc', hmms, hlive⟩ := hc.turn ha (s1.vmas i)
      have hk' := (congrFun hmms k).trans hk
      simp only
      rw [hc'.inv.next_eq hk' hL]
      refine copyVmas_none (A := A ++ [i]) hc' hk' (by rw [hL]; simp) (Nat.le_of_succ_le_succ hf) ?_
      obtain ⟨j, hj, hno⟩ := h
      rcases List.mem_cons.1 hj with rfl | hj
      · rw [noNode_iff.1 hno] at ha
        cases ha
      · exact ⟨j, hj, hno.mono hlive⟩

/-- A list of one node. -/
theorem ListWf.singleton (hm : mm.mmap = some i) (hn : s.links.next i = none) (hp : s.links.prev i = none)
    (hlive : s.live i = true) (hr : RangeWf (s.vmas i)) : ListWf s mm [i] :=
  ⟨⟨hm, hp, hn⟩, by simpa using hlive, by simpa [tidy_cons, tidy_nil] using hr⟩

/-- A new address space with a list of its own. -/
theorem Inv.addMm {j : Nat} {l : List Nat} (hi : Inv s L) (hl : ListWf s mm l)
    (hfree : ∀ i ∈ l, ∀ k, i ∉ L k) : Inv (s.setMm j mm) (Function.update L j l) := by
  refine hi.update ⟨fun a ha => Function.update_of_ne ha _ _, fun a _ i h => ⟨rfl, rfl, rfl, hi.live h⟩,
    fun a _ i h hl => hfree i hl a h, hi.bound⟩ (Function.update_self ..) ?_
  exact hl.congr fun i h => ⟨rfl, rfl, rfl, hl.live i h⟩

theorem Inv.mmCopy {new : Option Nat} {nodes : Nat → Option Nat} (hi : Inv s L) (hok : CopyOk s k new nodes) :
    ∃ L', Inv (Mm.mmCopy s k new nodes).2 L' := by
  unfold Mm.mmCopy
  cases hk : s.mms k with
  | none => exact ⟨L, hi⟩
  | some old =>
    cases new with
    | none => exact ⟨L, hi⟩
    | some j =>
      simp only
      by_cases hused : (s.mms j).isSome = true
      · rw [if_pos hused]
        exact ⟨L, hi⟩
      rw [if_neg hused]
      have hc : Copying s L [] none none :=
        ⟨hi, List.forall_mem_nil _, List.forall_mem_nil _, fun c h => (by cases h), fun c h => (by cases h)⟩
      have hl := hi.lists k old hk
      have hhead : old.mmap = (L k).head? := hl.chain.head_eq
      have hlen : (L k).length ≤ s.bound := Dll.length_le_of_lt hl.tidy.nodup fun i h => hi.bound i (hl.live i h)
      rcases hcopy : copyVmas nodes s.bound s old.mmap none none with ⟨_ | head, s'⟩
      · exact ⟨L, copyVmas_inv hc hcopy⟩
      · have hone : (L k).length ≤ 1 := by
          have h := hok.resolve_left (fun h => hused (h j rfl)) old hk
          rw [hi.nodes_eq hk] at h
          refine h.resolve_right fun hno => ?_
          have := copyVmas_none (A := []) hc hk rfl hlen hno
          rw [← hhead, hcopy] at this
          cases this
        simp only
        rw [hhead] at hcopy
        rcases hLk : L k with _ | ⟨i, _ | ⟨i', l⟩⟩
        · -- nothing to copy
          have hnil : copyVmas nodes s.bound s none none none = (some none, s) := by
            cases s.bound <;> rfl
          rw [hLk, List.head?_nil, hnil] at hcopy
          cases hcopy
          exact ⟨_, hi.addMm (l := []) ⟨rfl, List.forall_mem_nil _, tidy_nil⟩ (List.forall_mem_nil _)⟩
        · have hb : s.bound = s.bound - 1 + 1 := by
            have := hi.bound i (hl.live i (by rw [hLk]; simp))
            omega
          rw [hLk, List.head?_cons, hb, copyVmas] at hcopy
          rcases ha : Mm.vmaAlloc s (nodes i) with ⟨_ | c, s1⟩
          · rw [ha] at hcopy
            cases hcopy
          · rw [ha] at hcopy
            obtain ⟨hc', hmms, -⟩ := hc.turn ha (s1.vmas i)
            obtain ⟨-, -, -, hlive, hvmas⟩ := hi.vmaAlloc ha
            have hk' := (congrFun hmms k).trans hk
            have hnext := hc'.inv.next_eq (A := []) hk' hLk
            have hic : i ≠ c := by
              rintro rfl
              exact hc'.free i List.mem_cons_self k (by rw [hLk]; simp)
            simp only [linkCopy] at hcopy hnext
            rw [hnext] at hcopy
            have hnil : ∀ (n : Nat) (X : State), copyVmas nodes n X ([] : List Nat).head? (some c) (some c) =
                (some (some c), X) := by
              intro n X
              cases n <;> rfl
            rw [if_pos trivial, hnil] at hcopy
            cases hcopy
            refine ⟨_, hc'.inv.addMm (l := [c]) (.singleton rfl ?_ ?_ ?_ ?_)
              fun d hd => hc'.free d hd⟩
            · exact (vmaAlloc_links ha).1
            · exact (vmaAlloc_links ha).2
            · exact hlive
            · simp only [linkCopy, State.setVma, Function.update_self]
              rw [hvmas i hic]
              exact hi.rangeWf hk (by rw [hLk]; simp)
        · rw [hLk] at hone
          simp at hone

/-! ## Runs -/

/-- **Every step that meets the condition keeps every list.** -/
theorem step_inv {op : Op} (hi : ∃ L, Inv s L) (hok : StepOk s op) (h : step s op = some s') : ∃ L, Inv s' L := by
  obtain ⟨L, hi⟩ := hi
  cases op with
  | mmap k addrHint length prot flags offset fdOk pages node =>
    simp only [step] at h
    split at h
    · cases h
      exact hi.sysMmap hok
    · cases h
  | munmap k addr length tails =>
    simp only [step] at h
    split at h
    · cases h
      exact hi.sysMunmap hok
    · cases h
  | brk k addr pages node =>
    simp only [step] at h
    split at h
    · cases h
      exact hi.sysBrk hok
    · cases h
  | pageFault k faultAddr present write user page =>
    simp only [step] at h
    split at h
    · cases h
      exact ⟨L, hi.doPageFault hok⟩
    · cases h
  | mmCopy k new nodes =>
    cases h
    exact hi.mmCopy hok
  | insertVma k v node =>
    simp only [step] at h
    split at h
    · cases h
      cases hk : s.mms k with
      | none => exact hi.registerVma_absent hk
      | some mm => exact hi.registerVma hk (hok mm hk)
    · cases h

theorem Inv.init (h : machine.init s) : Inv s fun _ => [] := by
  obtain ⟨hmm, hb⟩ := h
  exact ⟨fun k mm hk => ⟨hmm k mm hk, List.forall_mem_nil _, tidy_nil⟩, fun _ _ => rfl, hb,
    fun _ _ i hi => absurd hi List.not_mem_nil⟩

/-- **The VMA list of every address space is well formed after every run** whose steps all meet `StepOk`: sorted, its areas
page-aligned, non-empty and disjoint, its links mutually inverse, and no freed node on it. -/
theorem lists_of_run (l : List Op) (s s' : State) (h0 : machine.init s) (h : machine.RunOk StepOk s l s') :
    ∀ k mm, s'.mms k = some mm → ∃ nodes, ListWf s' mm nodes := by
  obtain ⟨L, hi⟩ := machine.runOk_invariant (P := fun s => ∃ L, Inv s L)
    (fun s a s' hP hok hs => step_inv hP hok hs) l s s' ⟨_, Inv.init h0⟩ h
  exact fun k mm hk => ⟨L k, hi.lists k mm hk⟩

/-- Two address spaces without areas, before any allocation. -/
def bootState : State where
  mms k := if k < 2 then some ⟨none, 0x600000, 0x600000, 0x7FFFFF000000, 0⟩ else none
  vmas _ := ⟨0, 0, 0, 0, 0⟩
  links := ⟨fun _ => none, fun _ => none⟩
  live _ := false
  bound := 0
  kmapPtr := 0xFFFF800100000000

theorem bootState_init : machine.init bootState := by
  refine ⟨fun k mm hk => ?_, fun i hi => by cases hi⟩
  simp only [bootState] at hk
  split at hk
  · cases hk
    rfl
  · cases hk

/-- A stack, a mapping of five pages with a hole punched into it and its head trimmed, a heap that grows twice and
shrinks, a fault that grows the stack, and a fork of the address space that has one area. -/
def session : List Op :=
  [.insertVma 0 ⟨0x7FFFFEFF0000, 0x7FFFFF000000, vmRead ||| vmWrite, vmGrowsDown, 0⟩ (some 0),
   .mmap 0 0 20000 3 mapAnonymous 0 true true (some 1),
   .munmap 0 0x7FFEFFFFD000 4096 (fun _ => some 2),
   .munmap 0 0x7FFEFFFFA000 8192 (fun _ => none),
   .brk 0 0x602800 true (some 3), .brk 0 0x605000 true none, .brk 0 0x600800 true none,
   .pageFault 0 0x7FFFFEFEFFF8 false true true true,
   .mmap 1 0x400000 100 5 (mapFixed ||| mapAnonymous) 0 true true (some 4),
   .mmCopy 1 (some 2) (fun _ => some 5),
   .mmap 2 0x400000 8192 1 mapAnonymous 0 true true (some 6)]

theorem lists_of_run_session :
    ∃ s', machine.RunOk StepOk bootState session s' ∧ ∀ k mm, s'.mms k = some mm → ∃ nodes, ListWf s' mm nodes := by
  have hrun : (machine.check StepOk bootState session).isSome = true := by decide +kernel
  obtain ⟨s', h⟩ := Option.isSome_iff_exists.1 hrun
  have hok := machine.runOk_of_check h
  exact ⟨s', hok, lists_of_run _ _ _ bootState_init hok⟩

/-- One page is mapped and unmapped again. -/
def mapUnmap : List Op :=
  [.mmap 0 0x400000 4096 3 mapAnonymous 0 true true (some 0), .munmap 0 0x400000 4096 (fun _ => none)]

/-- **`sys_munmap` frees an area it leaves on the list.** -/
theorem not_lists_of_munmap :
    ∃ s' mm, machine.init bootState ∧ machine.run bootState mapUnmap = some s' ∧ s'.mms 0 = some mm ∧
      ¬∃ nodes, ListWf s' mm nodes := by
  have hrun : (machine.run bootState mapUnmap).map (fun s => ((s.mms 0).map MmStruct.mmap, s.live 0)) =
      some (some (some 0), false) := by decide +kernel
  obtain ⟨s', h, hs⟩ := Option.map_eq_some_iff.1 hrun
  obtain ⟨hmm, hlive⟩ := Prod.mk.inj hs
  obtain ⟨mm, hk, hm⟩ := Option.map_eq_some_iff.1 hmm
  refine ⟨s', mm, bootState_init, h, hk, ?_⟩
  rintro ⟨nodes, hl⟩
  have hhead := hl.chain.head_eq
  rw [hm] at hhead
  have hmem : 0 ∈ nodes := List.mem_of_head? hhead.symm
  cases hlive.symm.trans (hl.live 0 hmem)

end Mm
end Pico
