import Picomimi.VmaLists
/-!
# VmaStep — when a call leaves the VMA lists well formed; `sys_mmap` and `sys_munmap`

`StepOk` says of each call when it leaves the lists well formed: a range that is registered is not empty, does not wrap and
meets no area; `sys_munmap` covers no area entirely and `sys_brk` leaves the heap area something (both free a node that
stays linked); a stack grows into a gap; and `mm_copy` copies at most one area (it writes no `prev`).
-/
namespace Pico
namespace Mm

open Lib

/-- `vma_alloc` answers `NULL`. -/
def NoNode (s : State) (node : Option Nat) : Prop := (vmaAlloc s node).1 = none

instance (s : State) (node : Option Nat) : Decidable (NoNode s node) := inferInstanceAs (Decidable (_ = _))

/-- What becomes of the range `[a, b)` is an area. -/
structure RangeOk (s : State) (mm : MmStruct) (a b : Nat) : Prop where
  lt : a < b
  dvd_start : pageSize ∣ a
  dvd_end : pageSize ∣ b
  end_lt : b < word64
  apart : Apart (s.areas mm) a b

instance (s : State) (mm : MmStruct) (a b : Nat) : Decidable (RangeOk s mm a b) :=
  decidable_of_iff (a < b ∧ pageSize ∣ a ∧ pageSize ∣ b ∧ b < word64 ∧ Apart (s.areas mm) a b)
    ⟨fun ⟨h1, h2, h3, h4, h5⟩ => ⟨h1, h2, h3, h4, h5⟩, fun ⟨h1, h2, h3, h4, h5⟩ => ⟨h1, h2, h3, h4, h5⟩⟩

/-- The call registers nothing, or a range it chose that is not empty, does not wrap and, if the caller fixed it, meets no
area. -/
def MmapOk (s : State) (k addrHint length flags offset : Nat) (fdOk pages : Bool) (node : Option Nat) : Prop :=
  length = 0 ∨ offset % pageSize ≠ 0 ∨ (has flags mapAnonymous = false ∧ fdOk = false) ∨ pages = false ∨
    NoNode s node ∨
    ∀ mm ∈ s.mms k, ∀ vaddr ∈ (mmapAddr s mm addrHint (pageAlign length) flags).toOption,
      0 < pageAlign length ∧ vaddr + pageAlign length < word64 ∧
      (has flags mapFixed → Apart (s.areas mm) vaddr (vaddr + pageAlign length))

/-- No area is covered entirely; and where the range wraps, no area is split around the gap it leaves. -/
def MunmapOk (s : State) (k addr length : Nat) (tails : Nat → Option Nat) : Prop :=
  addr % pageSize ≠ 0 ∨ length = 0 ∨
    ∀ mm ∈ s.mms k, ∀ i ∈ s.nodes mm,
      ¬(addr ≤ (s.vmas i).start ∧ (s.vmas i).endAddr ≤ add64 addr (pageAlign length)) ∧
      (add64 addr (pageAlign length) < addr → (s.vmas i).start < add64 addr (pageAlign length) →
        addr < (s.vmas i).endAddr → NoNode s (tails i))

/-- The heap grows over free space: the heap area that ends at the old break, or a new one that is not empty. -/
def GrowOk (s : State) (mm : MmStruct) (growStart newBrk : Nat) (node : Option Nat) : Prop :=
  if (heapEndingAt s mm growStart).isSome then Apart (s.areas mm) growStart newBrk
  else NoNode s node ∨ growStart < newBrk ∧ Apart (s.areas mm) growStart newBrk

/-- Something is left of the heap area that is cut. -/
def ShrinkOk (s : State) (mm : MmStruct) (shrinkStart : Nat) : Prop :=
  ∀ i ∈ heapEndingAbove s mm shrinkStart, (s.vmas i).start < shrinkStart

def BrkOk (s : State) (k addr : Nat) (pages : Bool) (node : Option Nat) : Prop :=
  ∀ mm ∈ s.mms k,
    addr = 0 ∨ addr < mm.startBrk ∨ sub64 mm.startStack (128 * 1024) < addr ∨ pageAlign addr = mm.brk ∨
    (mm.brk < pageAlign addr ∧ (pages = false ∨ GrowOk s mm (pageAlign mm.brk) (pageAlign addr) node)) ∨
    (pageAlign addr < mm.brk ∧ ShrinkOk s mm (pageAlign addr))

/-- A stack that grows meets no area. -/
def PageFaultOk (s : State) (k faultAddr : Nat) (user : Bool) : Prop :=
  user = false ∨ faultAddr < 0x1000 ∨
    ∀ mm ∈ s.mms k, (∃ v ∈ s.areas mm, v.start ≤ faultAddr ∧ faultAddr < v.endAddr) ∨
      ∀ i ∈ stackVma s mm faultAddr, Apart (s.areas mm) (alignDown faultAddr pageSize) (s.vmas i).start

/-- At most one area is copied, or an allocation fails. -/
def CopyOk (s : State) (k : Nat) (new : Option Nat) (nodes : Nat → Option Nat) : Prop :=
  (∀ j ∈ new, (s.mms j).isSome = true) ∨
    ∀ mm ∈ s.mms k, (s.nodes mm).length ≤ 1 ∨ ∃ i ∈ s.nodes mm, NoNode s (nodes i)

/-- **What a call must find for the lists to stay well formed.** -/
def StepOk (s : State) : Op → Prop
  | .mmap k addrHint length _ flags offset fdOk pages node => MmapOk s k addrHint length flags offset fdOk pages node
  | .munmap k addr length tails => MunmapOk s k addr length tails
  | .brk k addr pages node => BrkOk s k addr pages node
  | .pageFault k faultAddr _ _ user _ => PageFaultOk s k faultAddr user
  | .mmCopy k new nodes => CopyOk s k new nodes
  | .insertVma k v node => ∀ mm ∈ s.mms k, NoNode s node ∨ RangeOk s mm v.start v.endAddr

instance (s : State) (mm : MmStruct) (growStart newBrk : Nat) (node : Option Nat) :
    Decidable (GrowOk s mm growStart newBrk node) := inferInstanceAs (Decidable (ite _ _ _))

instance (s : State) (mm : MmStruct) (shrinkStart : Nat) : Decidable (ShrinkOk s mm shrinkStart) :=
  inferInstanceAs (Decidable (∀ i ∈ heapEndingAbove s mm shrinkStart, (s.vmas i).start < shrinkStart))

instance (s : State) (op : Op) : Decidable (StepOk s op) := by
  cases op <;> delta StepOk MmapOk MunmapOk BrkOk PageFaultOk CopyOk <;> infer_instance

variable {s s' : State} {L : Nat → List Nat} {k i : Nat} {mm : MmStruct} {A B : List Nat} {v : Vma} {node : Option Nat}

theorem noNode_iff : NoNode s node ↔ vmaAlloc s node = (none, s) := by
  constructor
  · intro h
    obtain ⟨o, s', ha⟩ : ∃ o s', vmaAlloc s node = (o, s') := ⟨_, _, rfl⟩
    cases o with
    | none => rw [ha, vmaAlloc_none ha]
    | some n =>
      rw [NoNode, ha] at h
      cases h
  · intro h
    rw [NoNode, h]

theorem vmaAlloc_live {o : Option Nat} {j : Nat} (h : Mm.vmaAlloc s node = (o, s')) (hj : s.live j = true) :
    s'.live j = true := by
  cases node with
  | none =>
    cases h
    exact hj
  | some n =>
    simp only [Mm.vmaAlloc] at h
    split at h
    · cases h
      exact hj
    · cases h
      by_cases hjn : j = n
      · subst hjn
        exact Function.update_self ..
      · exact (Function.update_of_ne hjn _ _).trans hj

theorem NoNode.mono (h : NoNode s node) (hlive : ∀ j, s.live j = true → s'.live j = true) : NoNode s' node := by
  cases node with
  | none => rfl
  | some n =>
    by_cases hn : s.live n = true
    · simp only [NoNode, Mm.vmaAlloc, if_pos (hlive n hn)]
    · simp only [NoNode, Mm.vmaAlloc, if_neg hn] at h
      cases h

theorem Inv.split_mem (hi : Inv s L) (hk : s.mms k = some mm) (hL : L k = A ++ i :: B) :
    Tidy (A.map s.vmas ++ s.vmas i :: B.map s.vmas) := by
  have h := (hi.lists k mm hk).tidy
  rwa [hL, List.map_append, List.map_cons] at h

theorem Inv.rangeWf (hi : Inv s L) (hk : s.mms k = some mm) (h : i ∈ L k) : RangeWf (s.vmas i) :=
  (hi.lists k mm hk).tidy.range _ (List.mem_map_of_mem h)

/-- **An area cut** keeps every list. -/
theorem Inv.shrink (hi : Inv s L) (hk : s.mms k = some mm) (hL : L k = A ++ i :: B) (hr : RangeWf v)
    (hs : (s.vmas i).start ≤ v.start) (he : v.endAddr ≤ (s.vmas i).endAddr) : Inv (s.setVma i v) L :=
  hi.setVma hk hL ((hi.split_mem hk hL).shrink hr hs he)

/-- A fresh node with a range that fits between two areas. -/
theorem Inv.placeAt (hi : Inv s L) (hk : s.mms k = some mm) (ha : Mm.vmaAlloc s node = (some i, s')) (hL : L k = A ++ B)
    (hr : RangeWf v) (hA : ∀ a ∈ A, (s.vmas a).endAddr ≤ v.start) (hB : ∀ b ∈ B, v.endAddr ≤ (s.vmas b).start) :
    Inv (Mm.insertVma (s'.setVma i v) k i) (Function.update L k (A ++ i :: B)) := by
  obtain ⟨hi', hmms, hfree, hlive, hvmas⟩ := hi.vmaAlloc ha
  have hself : (s'.setVma i v).vmas i = v := Function.update_self ..
  have hne : ∀ x ∈ A ++ B, (s'.setVma i v).vmas x = s.vmas x := by
    intro x hx
    rw [← hL] at hx
    have hxi : x ≠ i := by
      rintro rfl
      exact hfree k hx
    exact (Function.update_of_ne hxi _ _).trans (hvmas x hxi)
  have hk' : (s'.setVma i v).mms k = some mm := (congrFun hmms k).trans hk
  refine (hi'.setFree hfree v).insertVma hk' hL hfree hlive ?_ (fun a ha => ?_) (fun b hb => ?_)
  · rw [hself]
    exact hr
  · rw [hself, hne a (List.mem_append_left B ha)]
    exact hA a ha
  · rw [hself, hne b (List.mem_append_right A hb)]
    exact hB b hb

/-- **A fresh node with a range that meets no area.** -/
theorem Inv.place (hi : Inv s L) (hk : s.mms k = some mm) (ha : Mm.vmaAlloc s node = (some i, s'))
    (hr : RangeOk s mm v.start v.endAddr) : ∃ L', Inv (Mm.insertVma (s'.setVma i v) k i) L' := by
  obtain ⟨hlt, hds, hde, hend, hap⟩ := hr
  rw [hi.areas_eq hk] at hap
  obtain ⟨A, B, hL, hA, hB⟩ := Tidy.split s.vmas hlt (hi.lists k mm hk).tidy hap
  exact ⟨_, hi.placeAt hk ha hL ⟨hlt, hds, hde, hend⟩ hA hB⟩

theorem Inv.registerVma (hi : Inv s L) (hk : s.mms k = some mm) (h : NoNode s node ∨ RangeOk s mm v.start v.endAddr) :
    ∃ L', Inv (Mm.registerVma s k v node) L' := by
  unfold Mm.registerVma
  split
  · rename_i s' ha
    rw [vmaAlloc_none ha]
    exact ⟨L, hi⟩
  · rename_i i s' ha
    rcases h with h | h
    · rw [noNode_iff.1 h] at ha
      cases ha
    · exact hi.place hk ha h

/-- Without an address space the node is allocated and stays on no list. -/
theorem Inv.registerVma_absent (hi : Inv s L) (hk : s.mms k = none) : ∃ L', Inv (Mm.registerVma s k v node) L' := by
  unfold Mm.registerVma
  split
  · rename_i s' ha
    rw [vmaAlloc_none ha]
    exact ⟨L, hi⟩
  · rename_i i s' ha
    obtain ⟨hi', hmms, hfree, -⟩ := hi.vmaAlloc ha
    have hk' : (s'.setVma i v).mms k = none := (congrFun hmms k).trans hk
    simp only [Mm.insertVma, hk']
    exact ⟨L, hi'.setFree hfree v⟩

/-! ## `sys_mmap` -/

theorem Inv.setKmap (hi : Inv s L) (p : Nat) : Inv { s with kmapPtr := p } L :=
  ⟨fun k mm hk => (hi.lists k mm hk).congr fun _ hj => ⟨rfl, rfl, rfl, hi.live hj⟩, hi.absent, hi.bound, hi.apart⟩

/-- **The range the gap search returns meets no area**, as far as it does not wrap. -/
theorem findGap_apart {vs : List Vma} {size : Nat} : ∀ {tries hint : Nat}, findGap vs size tries hint ≠ 0 →
    findGap vs size tries hint + size < word64 →
    Apart vs (findGap vs size tries hint) (findGap vs size tries hint + size)
  | 0, hint, h, _ => absurd rfl h
  | tries + 1, hint, h, hlt => by
    rw [findGap] at h hlt ⊢
    split at h
    · rename_i v hv
      simp only [hv] at hlt ⊢
      exact findGap_apart h hlt
    · rename_i hnone
      simp only [hnone] at hlt ⊢
      intro v hv
      have hno := List.find?_eq_none.1 hnone v hv
      rw [add64_of_lt hlt] at hno
      simp only [decide_eq_true_eq] at hno
      omega

theorem pageAlign_lt (x : Nat) : pageAlign x < word64 :=
  Nat.lt_of_le_of_lt (alignDown_le _ _) (add64_lt _ _)

theorem mmapAddr_ok {addrHint length flags vaddr : Nat} (h : mmapAddr s mm addrHint length flags = .ok vaddr) :
    (has flags mapFixed = true ∧ pageSize ∣ vaddr) ∨
      (vaddr = findFreeVma s mm addrHint length ∧ vaddr ≠ 0 ∧ has flags mapFixed = false) := by
  unfold mmapAddr at h
  split at h
  · rename_i hf
    split at h
    · cases h
    · rename_i hd
      cases h
      exact .inl ⟨hf, Nat.dvd_of_mod_eq_zero (by omega)⟩
  · rename_i hf
    simp only at h
    split at h
    · cases h
    · rename_i h0
      cases h
      exact .inr ⟨rfl, h0, by simpa using hf⟩

/-- The gap search returns page boundaries. -/
theorem dvd_findGap {vs : List Vma} {size : Nat} : ∀ {tries hint : Nat}, pageSize ∣ hint →
    pageSize ∣ findGap vs size tries hint
  | 0, hint, _ => Nat.dvd_zero _
  | tries + 1, hint, h => by
    rw [findGap]
    split
    · exact dvd_findGap (dvd_alignUp _ _)
    · exact h

theorem Inv.sysMmap {addrHint length prot flags offset : Nat} {fdOk pages : Bool} (hi : Inv s L)
    (hok : MmapOk s k addrHint length flags offset fdOk pages node) :
    ∃ L', Inv (Mm.sysMmap s k addrHint length prot flags offset fdOk pages node).2 L' := by
  unfold Mm.sysMmap
  by_cases h0 : length = 0
  · rw [if_pos h0]
    exact ⟨L, hi⟩
  by_cases hoff : offset % pageSize ≠ 0
  · rw [if_neg h0, if_pos hoff]
    exact ⟨L, hi⟩
  rw [if_neg h0, if_neg hoff]
  cases hk : s.mms k with
  | none => exact ⟨L, hi.setKmap _⟩
  | some mm =>
    simp only
    cases hva : mmapAddr s mm addrHint (pageAlign length) flags with
    | error e => exact ⟨L, hi⟩
    | ok vaddr =>
      simp only
      by_cases hfd : has flags mapAnonymous = false ∧ fdOk = false
      · rw [if_pos hfd]
        exact ⟨L, hi⟩
      by_cases hpages : pages = false
      · rw [if_neg hfd, if_pos hpages]
        exact ⟨L, hi⟩
      rw [if_neg hfd, if_neg hpages]
      rcases ha : Mm.vmaAlloc s node with ⟨_ | i, s'⟩
      · rw [vmaAlloc_none ha]
        exact ⟨L, hi⟩
      · have hno : ¬NoNode s node := by
          rw [noNode_iff, ha]
          exact fun h => by cases h
        have hr : RangeOk s mm vaddr (add64 vaddr (pageAlign length)) := by
          rcases hok with h | h | h | h | h | h
          · exact absurd h h0
          · exact absurd h hoff
          · exact absurd h hfd
          · exact absurd h hpages
          · exact absurd h hno
          · obtain ⟨hpos, hlt, hfix⟩ := h mm hk vaddr (by rw [hva]; rfl)
            rw [add64_of_lt hlt]
            rcases mmapAddr_ok hva with ⟨hf, hd⟩ | ⟨rfl, hne, -⟩
            · exact ⟨by omega, hd, Nat.dvd_add hd (dvd_alignUp _ _), hlt, hfix hf⟩
            · have hd : pageSize ∣ findFreeVma s mm addrHint (pageAlign length) := dvd_findGap (dvd_alignDown _ _)
              exact ⟨by omega, hd, Nat.dvd_add hd (dvd_alignUp _ _), hlt, findGap_apart hne hlt⟩
        obtain ⟨L', hL'⟩ := hi.place hk ha
          (v := ⟨vaddr, add64 vaddr (pageAlign length), mmapFlags prot flags ||| _, _, offset / pageSize⟩) hr
        exact ⟨L', hL'.addTotalVm k _⟩

/-! ## `sys_munmap` -/

/-- The area after `i` is the one the loop goes on to. -/
theorem Inv.next_eq (hi : Inv s L) (hk : s.mms k = some mm) (hL : L k = A ++ i :: B) : s.links.next i = B.head? := by
  have hc := (hi.lists k mm hk).chain
  rw [hL, Dll.path_append] at hc
  obtain ⟨_, _, _, _, hrest⟩ := hc
  exact hrest.head_eq

theorem subTotalVm_mms (s : State) (k n : Nat) {mm : MmStruct} (hk : s.mms k = some mm) :
    ∃ mm', (Mm.subTotalVm s k n).mms k = some mm' := by
  simp only [Mm.subTotalVm, hk, State.setMm, Function.update_self]
  exact ⟨_, rfl⟩

@[simp] theorem subTotalVm_vmas (s : State) (k n : Nat) : (Mm.subTotalVm s k n).vmas = s.vmas := by
  unfold Mm.subTotalVm
  split <;> rfl

@[simp] theorem subTotalVm_live (s : State) (k n : Nat) : (Mm.subTotalVm s k n).live = s.live := by
  unfold Mm.subTotalVm
  split <;> rfl

@[simp] theorem insertVma_vmas (s : State) (k i : Nat) : (Mm.insertVma s k i).vmas = s.vmas := by
  unfold Mm.insertVma
  split <;> rfl

@[simp] theorem insertVma_live (s : State) (k i : Nat) : (Mm.insertVma s k i).live = s.live := by
  unfold Mm.insertVma
  split <;> rfl

theorem insertPos_congr {x : Nat} {v : Vma} (hv : v.start = (s.vmas i).start) : ∀ (fuel : Nat) (p cur : Option Nat),
    insertPos (s.setVma i v) x fuel p cur = insertPos s x fuel p cur
  | 0, _, _ => rfl
  | _ + 1, _, none => rfl
  | fuel + 1, p, some c => by
    have hstart : ((s.setVma i v).vmas c).start = (s.vmas c).start := by
      by_cases hc : c = i
      · subst hc
        exact (congrArg Vma.start (Function.update_self ..)).trans hv
      · exact congrArg Vma.start (Function.update_of_ne hc _ _)
    simp only [insertPos, hstart, insertPos_congr hv fuel]
    rfl

/-- **`insert_vma` looks at the starts only**: where an area ends can be changed before it as well as after. -/
theorem insertVma_setVma {v : Vma} {t : Nat} (hv : v.start = (s.vmas i).start) (hti : t ≠ i) :
    Mm.insertVma (s.setVma i v) k t = (Mm.insertVma s k t).setVma i v := by
  have ht : (s.setVma i v).vmas t = s.vmas t := Function.update_of_ne hti _ _
  have hpos := fun cur => insertPos_congr (x := (s.vmas t).start) hv s.bound none cur
  cases hk : s.mms k with
  | none => simp only [Mm.insertVma, State.setVma, hk]
  | some mm =>
    simp only [Mm.insertVma, ht]
    simp only [State.setVma, hk] at hpos ⊢
    simp only [hpos]

/-- What a turn of the loop keeps of the rest of the list. -/
structure Turn (s s' : State) (k : Nat) (B : List Nat) : Prop where
  inv : ∃ A L, Inv s' L ∧ L k = A ++ B
  mm : ∃ mm, s'.mms k = some mm
  vmas : ∀ j ∈ B, s'.vmas j = s.vmas j
  live : ∀ j, s.live j = true → s'.live j = true

theorem notMem_tail (hi : Inv s L) (hk : s.mms k = some mm) (hL : L k = A ++ i :: B) : i ∉ B := by
  have hnd := (hi.lists k mm hk).tidy.nodup
  rw [hL] at hnd
  exact (List.nodup_cons.1 (List.nodup_append.1 hnd).2.1).1

/-- **A turn that cuts the area.** -/
theorem Turn.cut (hi : Inv s L) (hk : s.mms k = some mm) (hL : L k = A ++ i :: B) (hr : RangeWf v)
    (hs : (s.vmas i).start ≤ v.start) (he : v.endAddr ≤ (s.vmas i).endAddr) (n : Nat) :
    Turn s ((Mm.subTotalVm s k n).setVma i v) k B := by
  obtain ⟨mm', hk'⟩ := subTotalVm_mms s k n hk
  have hB := notMem_tail hi hk hL
  refine ⟨⟨A ++ [i], L, ?_, by rw [hL]; simp⟩, ⟨mm', hk'⟩, fun j hj => ?_, fun j hj => ?_⟩
  · exact (hi.subTotalVm k n).shrink hk' hL hr (by simpa using hs) (by simpa using he)
  · have hji : j ≠ i := by
      rintro rfl
      exact hB hj
    exact (Function.update_of_ne hji _ _).trans (congrFun (subTotalVm_vmas s k n) j)
  · exact (congrFun (subTotalVm_live s k n) j).trans hj

/-- A node's fields and the allocation of another one. -/
theorem vmaAlloc_setVma {t : Nat} (ha : Mm.vmaAlloc s node = (some t, s')) (hti : t ≠ i) (v : Vma) :
    Mm.vmaAlloc (s.setVma i v) node = (some t, s'.setVma i v) := by
  cases node with
  | none => cases ha
  | some m =>
    simp only [Mm.vmaAlloc] at ha ⊢
    split at ha
    · cases ha
    · rename_i hm
      cases ha
      rw [if_neg (show ¬(s.setVma i v).live t = true from hm)]
      simp only [State.setVma]
      rw [Function.update_comm hti]

/-- **A turn that splits the area** around `[start, endAddr)`. -/
theorem Turn.punch {start endAddr : Nat} (hi : Inv s L) (hk : s.mms k = some mm) (hL : L k = A ++ i :: B)
    (hds : pageSize ∣ start) (hde : pageSize ∣ endAddr) (hs : (s.vmas i).start < start)
    (he : endAddr < (s.vmas i).endAddr) (hse : start < (s.vmas i).endAddr)
    (hwrap : endAddr < start → NoNode s node) (n pg fl vf : Nat) :
    let s1 := Mm.registerVma s k ⟨endAddr, (s.vmas i).endAddr, fl, vf, pg⟩ node
    Turn s (Mm.subTotalVm (s1.setVma i { s1.vmas i with endAddr := start }) k n) k B := by
  intro s1
  have hr := hi.rangeWf hk (i := i) (by rw [hL]; simp)
  have hend := hr.end_lt
  have hB := notMem_tail hi hk hL
  have hcut : RangeWf { s.vmas i with endAddr := start } := ⟨hs, hr.dvd_start, hds, by simp only; omega⟩
  have hsh := hi.shrink hk hL hcut (Nat.le_refl _) (Nat.le_of_lt hse)
  have hkeep : ∀ X : State, (∀ j ∈ B, X.vmas j = s.vmas j) → ∀ w, ∀ j ∈ B,
      (Mm.subTotalVm (X.setVma i w) k n).vmas j = s.vmas j := by
    intro X hX w j hj
    have hji : j ≠ i := by
      rintro rfl
      exact hB hj
    rw [subTotalVm_vmas]
    exact (Function.update_of_ne hji _ _).trans (hX j hj)
  rcases ha : Mm.vmaAlloc s node with ⟨_ | t, s'⟩
  · have hs1 : s1 = s := by
      simp only [s1, Mm.registerVma, ha]
      exact vmaAlloc_none ha
    rw [hs1]
    refine ⟨⟨A ++ [i], L, hsh.subTotalVm k n, by rw [hL]; simp⟩, subTotalVm_mms _ k n hk, hkeep s (fun _ _ => rfl) _,
      fun j hj => ?_⟩
    rw [subTotalVm_live]
    exact hj
  · have hle : start ≤ endAddr := by
      by_contra hlt
      have := noNode_iff.1 (hwrap (by omega))
      rw [ha] at this
      cases this
    obtain ⟨hi', hmms, hfree, hlive, hvmas⟩ := hi.vmaAlloc ha
    have hti : t ≠ i := by
      rintro rfl
      exact hfree k (by rw [hL]; simp)
    -- the end of `i` is cut before the tail goes in: `insert_vma` does not look at it
    have hcomm : s1.setVma i { s1.vmas i with endAddr := start } =
        Mm.insertVma ((s'.setVma i { s.vmas i with endAddr := start }).setVma t
          ⟨endAddr, (s.vmas i).endAddr, fl, vf, pg⟩) k t := by
      have hs1 : s1 = Mm.insertVma (s'.setVma t ⟨endAddr, (s.vmas i).endAddr, fl, vf, pg⟩) k t := by
        simp only [s1, Mm.registerVma, ha]
      have hvi : s1.vmas i = s.vmas i := by
        rw [hs1, insertVma_vmas]
        exact (Function.update_of_ne (Ne.symm hti) _ _).trans (hvmas i (Ne.symm hti))
      have hvi' : (s'.setVma t ⟨endAddr, (s.vmas i).endAddr, fl, vf, pg⟩).vmas i = s.vmas i :=
        (Function.update_of_ne (Ne.symm hti) _ _).trans (hvmas i (Ne.symm hti))
      rw [hvi, hs1, ← insertVma_setVma (by rw [hvi']) hti]
      simp only [State.setVma]
      rw [Function.update_comm (Ne.symm hti)]
    have halloc := vmaAlloc_setVma ha hti { s.vmas i with endAddr := start }
    have hi2 : ∃ L', Inv (s1.setVma i { s1.vmas i with endAddr := start }) L' ∧ L' k = (A ++ [i, t]) ++ B := by
      rw [hcomm]
      have ht := hi.split_mem hk hL
      obtain ⟨_, _, _, hAi, hiB, _⟩ := tidy_middle.1 ht
      have hv : ∀ x, x ≠ i → (s.setVma i { s.vmas i with endAddr := start }).vmas x = s.vmas x :=
        fun x hx => Function.update_of_ne hx _ _
      have hself : (s.setVma i { s.vmas i with endAddr := start }).vmas i = { s.vmas i with endAddr := start } :=
        Function.update_self ..
      refine ⟨_, hsh.placeAt (A := A ++ [i]) (B := B) hk halloc (by rw [hL]; simp)
        ⟨he, hde, hr.dvd_end, hend⟩ (fun a ha => ?_) (fun b hb => ?_), by rw [Function.update_self]; simp⟩
      · by_cases hai : a = i
        · subst hai
          rw [hself]
          exact hle
        · rw [hv a hai]
          have ha : a ∈ A := by simpa [hai] using ha
          have := hAi _ (List.mem_map_of_mem ha)
          have := hr.lt
          simp only
          omega
      · have hbi : b ≠ i := by
          rintro rfl
          exact hB hb
        rw [hv b hbi]
        exact hiB _ (List.mem_map_of_mem hb)
    obtain ⟨L', hL', hLk⟩ := hi2
    have hs1k : ∃ mm', s1.mms k = some mm' := by
      simp only [s1, Mm.registerVma, ha, Mm.insertVma, State.setVma, congrFun hmms k, hk, Function.update_self]
      exact ⟨_, rfl⟩
    obtain ⟨mm', hk'⟩ := hs1k
    refine ⟨⟨_, L', hL'.subTotalVm k n, hLk⟩, subTotalVm_mms _ k n hk', hkeep s1 (fun j hj => ?_) _, fun j hj => ?_⟩
    · have hjt : j ≠ t := by
        rintro rfl
        exact hfree k (by rw [hL]; simp [hj])
      simp only [s1, Mm.registerVma, ha, insertVma_vmas, State.setVma, Function.update_of_ne hjt]
      exact hvmas j hjt
    · rw [subTotalVm_live]
      simp only [s1, Mm.registerVma, ha, State.setVma, insertVma_live]
      exact vmaAlloc_live ha hj

/-- **One turn of the loop of `sys_munmap`.** -/
theorem Turn.munmapVma {start endAddr : Nat} (hi : Inv s L) (hk : s.mms k = some mm) (hL : L k = A ++ i :: B)
    (hds : pageSize ∣ start) (hde : pageSize ∣ endAddr)
    (hcov : ¬(start ≤ (s.vmas i).start ∧ (s.vmas i).endAddr ≤ endAddr))
    (hwrap : endAddr < start → (s.vmas i).start < endAddr → start < (s.vmas i).endAddr → NoNode s node) (n : Nat) :
    Turn s (Mm.munmapVma s k i start endAddr n node) k B := by
  have hr := hi.rangeWf hk (i := i) (by rw [hL]; simp)
  have hend := hr.end_lt
  unfold Mm.munmapVma
  by_cases hout : (s.vmas i).endAddr ≤ start ∨ endAddr ≤ (s.vmas i).start
  · rw [if_pos hout]
    exact ⟨⟨A ++ [i], L, hi, by rw [hL]; simp⟩, ⟨mm, hk⟩, fun _ _ => rfl, fun _ h => h⟩
  obtain ⟨hse, hes⟩ := not_or.1 hout
  rw [if_neg hout, if_neg hcov]
  by_cases hboth : (s.vmas i).start < start ∧ endAddr < (s.vmas i).endAddr
  · rw [if_pos hboth]
    exact Turn.punch hi hk hL hds hde hboth.1 hboth.2 (by omega) (fun h => hwrap h (by omega) (by omega)) _ _ _ _
  rw [if_neg hboth]
  by_cases hlt : (s.vmas i).start < start
  · rw [if_pos hlt]
    have hcut : RangeWf { s.vmas i with endAddr := start } := ⟨hlt, hr.dvd_start, hds, by simp only; omega⟩
    exact Turn.cut hi hk hL hcut (Nat.le_refl _) (by simp only; omega) _
  · rw [if_neg hlt]
    have hcut : RangeWf { s.vmas i with start := endAddr } := ⟨by simp only; omega, hde, hr.dvd_end, hend⟩
    exact Turn.cut hi hk hL hcut (by simp only; omega) (Nat.le_refl _) _

/-- **The loop of `sys_munmap` visits every area once**, and keeps every list. -/
theorem Inv.munmapLoop {start endAddr n : Nat} {tails : Nat → Option Nat} (hds : pageSize ∣ start)
    (hde : pageSize ∣ endAddr) : ∀ {B A : List Nat} {s : State} {L : Nat → List Nat} {mm : MmStruct} {fuel : Nat},
    Inv s L → s.mms k = some mm → L k = A ++ B → B.length ≤ fuel →
    (∀ i ∈ B, ¬(start ≤ (s.vmas i).start ∧ (s.vmas i).endAddr ≤ endAddr)) →
    (∀ i ∈ B, endAddr < start → (s.vmas i).start < endAddr → start < (s.vmas i).endAddr → NoNode s (tails i)) →
    (∃ L', Inv (Mm.munmapLoop k start endAddr n tails fuel s B.head?) L') ∧
      Mm.munmapLoop k start endAddr n tails fuel s B.head? =
        B.foldl (fun s i => Mm.munmapVma s k i start endAddr n (tails i)) s
  | [], A, s, L, mm, fuel, hi, _, _, _, _, _ => by
    cases fuel <;> exact ⟨⟨L, hi⟩, rfl⟩
  | i :: B, A, s, L, mm, 0, _, _, _, hf, _, _ => absurd hf (by simp)
  | i :: B, A, s, L, mm, fuel + 1, hi, hk, hL, hf, hcov, hwrap => by
    obtain ⟨⟨A', L', hi', hL'⟩, ⟨mm', hk'⟩, hvmas, hlive⟩ :=
      Turn.munmapVma hi hk hL hds hde (hcov i List.mem_cons_self) (hwrap i List.mem_cons_self) n
    simp only [List.head?_cons, Mm.munmapLoop, hi.next_eq hk hL, List.foldl_cons]
    refine Inv.munmapLoop hds hde hi' hk' hL' (Nat.le_of_succ_le_succ hf) (fun j hj => ?_)
      (fun j hj h1 h2 h3 => ?_)
    · rw [hvmas j hj]
      exact hcov j (List.mem_cons_of_mem i hj)
    · rw [hvmas j hj] at h2 h3
      exact (hwrap j (List.mem_cons_of_mem i hj) h1 h2 h3).mono hlive

theorem Inv.sysMunmap {addr length : Nat} {tails : Nat → Option Nat} (hi : Inv s L)
    (hok : MunmapOk s k addr length tails) : ∃ L', Inv (Mm.sysMunmap s k addr length tails).2 L' := by
  unfold Mm.sysMunmap
  by_cases ha : addr % pageSize ≠ 0
  · rw [if_pos ha]
    exact ⟨L, hi⟩
  by_cases h0 : length = 0
  · rw [if_neg ha, if_pos h0]
    exact ⟨L, hi⟩
  rw [if_neg ha, if_neg h0]
  cases hk : s.mms k with
  | none => exact ⟨L, hi⟩
  | some mm =>
    have hd : pageSize ∣ addr := Nat.dvd_of_mod_eq_zero (by omega)
    have hareas : ∀ i ∈ L k, ¬(addr ≤ (s.vmas i).start ∧ (s.vmas i).endAddr ≤ add64 addr (pageAlign length)) ∧
        (add64 addr (pageAlign length) < addr → (s.vmas i).start < add64 addr (pageAlign length) →
          addr < (s.vmas i).endAddr → NoNode s (tails i)) := by
      rcases hok with h | h | h
      · exact absurd h ha
      · exact absurd h h0
      · rw [← hi.nodes_eq hk]
        exact h mm hk
    have hl := hi.lists k mm hk
    have hhead : mm.mmap = (L k).head? := hl.chain.head_eq
    simp only [hhead]
    exact (Inv.munmapLoop hd (dvd_add64 (by decide) hd (dvd_alignUp _ _)) (A := []) hi hk rfl
      (Dll.length_le_of_lt hl.tidy.nodup fun i h => hi.bound i (hl.live i h)) (fun i h => (hareas i h).1)
      (fun i h => (hareas i h).2)).1

end Mm
end Pico
