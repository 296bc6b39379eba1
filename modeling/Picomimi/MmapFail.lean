import Picomimi.FilesRun
import Picomimi.Sbrk
import Picomimi.StackGrowth
/-!
# MmapFail — `sys_mmap` and `sys_brk` when they fail

A call takes its pages one by one and maps each before it asks for the next; neither loop gives back what it took when a
page is missing.  So the failure changes nothing exactly when it comes at the first page (`unchanged_iff`).  The area is
registered last, and that there is no node for it is no failure; but a break that stays where it is may get an empty one.
-/
namespace Pico

/-! ## A list that is only in order along `next` -/

namespace Mm

open Lib

variable {s s' : State} {mm : MmStruct} {l : List Nat} {k i : Nat} {node : Option Nat}

/-- The node the loop of `insert_vma` leaves behind: one it has seen, or the `prev` of one. -/
theorem insertPos_fst (s : State) (start : Nat) : ∀ (fuel : Nat) (p h : Option Nat), (insertPos s start fuel p h).1 = p ∨
    ∃ c ∈ s.links.nodesFrom fuel h,
      (insertPos s start fuel p h).1 = some c ∨ (insertPos s start fuel p h).1 = s.links.prev c
  | 0, _, _ => .inl rfl
  | _ + 1, _, none => .inl rfl
  | fuel + 1, p, some cur => by
    unfold insertPos
    by_cases hcur : start < (s.vmas cur).start
    · rw [if_pos hcur]
      exact .inr ⟨cur, List.mem_cons_self, .inr rfl⟩
    rw [if_neg hcur]
    rcases insertPos_fst s start fuel (some cur) (s.links.next cur) with h | ⟨c, hc, h⟩
    · exact .inr ⟨cur, List.mem_cons_self, .inl h⟩
    · exact .inr ⟨c, List.mem_cons_of_mem cur hc, h⟩

/-- **A fresh node is on the list after `insert_vma`**, wherever it goes, and although a copy's `prev`s are `NULL`. -/
theorem Listed.mem_insertVma (hl : Listed s mm l) (hprev : ∀ j ∈ l, ∀ p ∈ s.links.prev j, p ∈ l)
    (hb : ∀ j, s.live j = true → j < s.bound) (hk : s.mms k = some mm) (ha : vmaAlloc s node = (some i, s')) (v : Vma) :
    ∃ mm', (insertVma (s'.setVma i v) k i).mms k = some mm' ∧ i ∈ (insertVma (s'.setVma i v) k i).nodes mm' ∧
      (insertVma (s'.setVma i v) k i).vmas i = v := by
  cases node with
  | none => cases ha
  | some n =>
    simp only [vmaAlloc] at ha
    by_cases hn : s.live n = true
    · rw [if_pos hn] at ha
      cases ha
    rw [if_neg hn] at ha
    cases ha
    have hfree : i ∉ l := fun h => hn (hl.live i h)
    generalize hu : ({ s with
      vmas := Function.update s.vmas i ⟨0, 0, 0, 0, 0⟩
      links := (s.links.setNext i none).setPrev i none
      live := Function.update s.live i true
      bound := max s.bound (i + 1) } : State).setVma i v = u
    have hku : u.mms k = some mm := hu ▸ hk
    have hnext : ∀ j, j ≠ i → u.links.next j = s.links.next j ∧ u.links.prev j = s.links.prev j := by
      rw [← hu]
      exact fun j hj => ⟨Function.update_of_ne hj _ _, Function.update_of_ne hj _ _⟩
    -- with a turn for the new node there is one to spare
    obtain ⟨b, hbound, hlen⟩ : ∃ b, u.bound = b + 1 ∧ l.length ≤ b := by
      have hlt : ∀ j ∈ i :: l, j < u.bound := by
        rw [← hu]
        intro j hj
        rcases List.mem_cons.1 hj with rfl | hj
        · exact Nat.lt_of_lt_of_le (Nat.lt_succ_self j) (Nat.le_max_right _ _)
        · exact Nat.lt_of_lt_of_le (hb j (hl.live j hj)) (Nat.le_max_left _ _)
      have hlen := Dll.length_le_of_lt (List.nodup_cons.2 ⟨hfree, hl.nodup⟩) hlt
      rw [List.length_cons] at hlen
      exact ⟨u.bound - 1, by omega, by omega⟩
    have hnodes : ∀ fuel, l.length ≤ fuel → u.links.nodesFrom fuel mm.mmap = l := fun fuel hle =>
      Onward.nodesFrom_eq (hl.onward.congr fun j hj => (hnext j fun he => hfree (he ▸ hj)).1) hle
    generalize hpos : insertPos u (u.vmas i).start u.bound none mm.mmap = pos
    have hstate : insertVma u k i = { u with
        links := u.links.splice i pos.1 pos.2
        mms := Function.update u.mms k (some { mm with mmap := if pos.1 = none then some i else mm.mmap }) } := by
      simp only [insertVma, hku, hpos]
    have hself : u.vmas i = v := by
      rw [← hu]
      exact Function.update_self ..
    rw [hstate]
    refine ⟨_, Function.update_self .., ?_, hself⟩
    show i ∈ (u.links.splice i pos.1 pos.2).nodesFrom u.bound (if pos.1 = none then some i else mm.mmap)
    rw [hbound]
    by_cases hnone : pos.1 = none
    · rw [if_pos hnone]
      exact List.mem_cons_self
    rw [if_neg hnone]
    obtain ⟨p, hp⟩ := Option.ne_none_iff_exists'.1 hnone
    have hpl : p ∈ l := by
      rcases insertPos_fst u (u.vmas i).start u.bound none mm.mmap with h | ⟨c, hc, h⟩
      · rw [hpos] at h
        exact absurd h hnone
      · rw [hnodes _ (by omega)] at hc
        rw [hpos, hp, (hnext c fun he => hfree (he ▸ hc)).2] at h
        rcases h with h | h
        · cases h
          exact hc
        · exact hprev c hc p h.symm
    refine Dll.mem_nodesFrom_of_next (p := p) ?_ (fun y hyp hyi => ?_) (hnodes b hlen ▸ hpl)
    · rw [Dll.splice_next, hp, if_pos rfl]
    · rw [Dll.splice_next, hp, if_neg fun he => hyp (Option.some.inj he).symm, if_neg hyi]

end Mm

namespace AddrSpace

open Lib Paging

def mapPrivate : Nat := 0x02

/-- The address spaces and the files. -/
structure World extends System where
  files : Files.State

/-! ## The calls -/

/-- `sys_mmap` of the task `t`, whose address space is `k`; `what` is what a file answers.  The reference is kept by a
mapping that is not private, and dropped on every other path. -/
def sysMmapFd (w : World) (t k addrHint length prot flags offset : Nat) (fd : Int) (what : Nat → MappedFile)
    (node : Option Nat) : Except Int Nat × World :=
  if (mmapTarget w.toSystem k addrHint length flags offset).isNone ∨ Mm.has flags Mm.mapAnonymous = true then
    let r := sysMmap w.toSystem k addrHint length prot flags offset none node
    (r.1, ⟨r.2, w.files⟩)
  else
    match Files.fget w.files t fd with
    | (none, files) =>
      let r := sysMmap w.toSystem k addrHint length prot flags offset none node
      (r.1, ⟨r.2, files⟩)
    | (some f, files) =>
      let r := sysMmap w.toSystem k addrHint length prot flags offset (some (what f)) node
      (r.1, ⟨r.2,
        if (what f).physBase = 0 ∧ r.1.isOk = true ∧ Mm.has flags mapPrivate = false then files else Files.fput files f⟩)

/-- The pages of `sys_brk`: those it grows by, or those it gives up. -/
def brkPages (s : System) (k addr : Nat) : Bool × State :=
  match s.vm.mms k with
  | none => (true, onCpu s k)
  | some mm =>
    let newBrk := Mm.pageAlign addr
    if ¬Mm.InHeap mm addr ∨ newBrk = mm.brk then (true, onCpu s k)
    else if mm.brk < newBrk then
      let growStart := Mm.pageAlign mm.brk
      mmapPages (protFlags (Mm.protRead ||| Mm.protWrite)) (fun _ => 0) growStart (sub64 newBrk growStart / pageSize) 0
        (onCpu s k)
    else (true, unmapPages (onCpu s k) newBrk ((mm.brk - newBrk + (pageSize - 1)) / pageSize))

def sysBrk (s : System) (k addr : Nat) (node : Option Nat) : Nat × System :=
  let pages := brkPages s k addr
  let r := Mm.sysBrk s.vm k addr pages.1 node
  (r.1, ⟨r.2, pages.2, s.pgd⟩)

inductive Call where
  | mmap (addrHint length prot flags offset : Nat) (fd : Int) (node : Option Nat)
  | brk (addr : Nat) (node : Option Nat)

/-- What a call of the task `t` leaves. -/
def Call.run (what : Nat → MappedFile) (w : World) (t k : Nat) : Call → World
  | .mmap addrHint length prot flags offset fd node => (sysMmapFd w t k addrHint length prot flags offset fd what node).2
  | .brk addr node => ⟨(sysBrk w.toSystem k addr node).2, w.files⟩

/-- `sys_mmap` returns an error, or `sys_brk` does not move the break. -/
def Call.Fails (what : Nat → MappedFile) (w : World) (t k : Nat) : Call → Prop
  | .mmap addrHint length prot flags offset fd node =>
    ∃ e, (sysMmapFd w t k addrHint length prot flags offset fd what node).1 = .error e
  | .brk addr node => Mm.brkOf (sysBrk w.toSystem k addr node).2.vm k = Mm.brkOf w.vm k

/-- **Nothing has changed**: the list of areas, the break and `total_vm`, every word of the page tables, the files' counts
and the free pages are what they were. -/
structure Unchanged (w w' : World) (k : Nat) : Prop where
  areas : ∀ mm ∈ w.vm.mms k, ∃ mm' ∈ w'.vm.mms k, w'.vm.nodes mm' = w.vm.nodes mm ∧ w'.vm.areas mm' = w.vm.areas mm ∧
    mm'.brk = mm.brk ∧ mm'.totalVm = mm.totalVm
  root : w'.pgd k = w.pgd k
  tables : ∀ a, userTree.Owned w.pt.mem (w.pgd k) a → w'.pt.mem a = w.pt.mem a
  refs : w'.files.pool = w.files.pool
  free : ∀ p, w'.pt.Free p ↔ w.pt.Free p

/-- No physical page is free. -/
def NoPage (s : State) : Prop := ∀ p, ¬s.Free p

/-- `sys_mmap` comes to ask for pages: it has an address, and is to fill new pages with zeros or from a file. -/
def AsksPages (what : Nat → MappedFile) (w : World) (t k addrHint length flags offset : Nat) (fd : Int) : Prop :=
  (mmapTarget w.toSystem k addrHint length flags offset).isSome = true ∧
    (Mm.has flags Mm.mapAnonymous = true ∨ ∃ f, w.files.lookup t fd = some f ∧ (what f).physBase = 0)

/-- **When a failure changes nothing**: no page is free when pages are asked for; and a break that is asked to be where it
is, inside a page, does not get an empty area. -/
def FailsClean (what : Nat → MappedFile) (w : World) (t k : Nat) : Call → Prop
  | .mmap addrHint length _ flags offset fd _ => AsksPages what w t k addrHint length flags offset fd → NoPage w.pt
  | .brk addr node => ∀ mm ∈ w.vm.mms k, Mm.InHeap mm addr → mm.brk < Mm.pageAlign addr →
    if Mm.pageAlign addr = Mm.pageAlign mm.brk then
      (Mm.heapEndingAt w.vm mm (Mm.pageAlign mm.brk)).isSome = true ∨ Mm.NoNode w.vm node
    else NoPage w.pt

/-- **A process in order**: its list ends, the nodes on it are allocated, and each one's `prev` is `NULL` or on the list;
its break is not in the last page there is; and the files in its table are counted. -/
structure InOrder (w : World) (t k : Nat) : Prop where
  list : ∀ mm ∈ w.vm.mms k, ∃ l, Mm.Listed w.vm mm l ∧ ∀ i ∈ l, ∀ p ∈ w.vm.links.prev i, p ∈ l
  bound : ∀ i, w.vm.live i = true → i < w.vm.bound
  brk : ∀ mm ∈ w.vm.mms k, mm.brk + 4095 < word64
  counted : ∀ fd f, w.files.lookup t fd = some f → ∃ c, 0 < c ∧ w.files.pool.count f = some c

/-! ## The pages -/

variable {s s' : State} {flags vaddr n off : Nat} {words : Nat → Nat}

theorem pmmAllocPage_still (h : pmmAllocPage s = (n, s')) {p : Nat} (hp : s'.Free p) : s.Free p := by
  rcases pmmAllocPage_spec h with ⟨-, rfl⟩ | hn
  · exact hp
  · exact (hn.still p hp).1

theorem getOrCreateTable_still {table index p : Nat} {o : Option Nat} (h : getOrCreateTable s table index = (o, s'))
    (hp : s'.Free p) : s.Free p := by
  unfold getOrCreateTable at h
  split at h
  · rcases ha : pmmAllocPage s with ⟨_ | m, s₁⟩
    · rw [ha] at h
      cases h
      exact pmmAllocPage_still ha hp
    · rw [ha] at h
      cases h
      exact pmmAllocPage_still ha hp
  · cases h
    exact hp

/-- **Mapping a page frees none.** -/
theorem vmmMapPage_still {virt phys p : Nat} (hp : (vmmMapPage s virt phys flags).Free p) : s.Free p := by
  unfold vmmMapPage at hp
  split at hp
  · exact hp
  dsimp only at hp
  rcases h4 : getOrCreateTable s (if pteNx ≤ virt then s.kernelPml4 else readCr3 s) (pml4Idx virt) with ⟨_ | pdpt, s₁⟩
  · rw [h4] at hp
    exact getOrCreateTable_still h4 hp
  rw [h4] at hp
  dsimp only at hp
  refine getOrCreateTable_still h4 ?_
  rcases h3 : getOrCreateTable s₁ pdpt (pdptIdx virt) with ⟨_ | pd, s₂⟩
  · rw [h3] at hp
    exact getOrCreateTable_still h3 hp
  rw [h3] at hp
  dsimp only at hp
  refine getOrCreateTable_still h3 ?_
  rcases h2 : getOrCreateTable s₂ pd (pdIdx virt) with ⟨_ | pt, s₃⟩
  · rw [h2] at hp
    exact getOrCreateTable_still h2 hp
  · rw [h2] at hp
    exact getOrCreateTable_still h2 hp

theorem mmapPages_still {p : Nat} (hp : (mmapPages flags words vaddr n off s).2.Free p) : s.Free p := by
  induction n generalizing off s with
  | zero => exact hp
  | succ n ih =>
    unfold mmapPages at hp
    rcases ha : pmmAllocPage s with ⟨_ | m, s₁⟩
    · rw [ha] at hp
      exact pmmAllocPage_still ha hp
    · rw [ha] at hp
      have hfill : (fillPage s₁ (m + 1) fun i => words (off + i)).Free p := vmmMapPage_still (ih hp)
      exact pmmAllocPage_still ha hfill

/-- **A loop that fails** found nothing free at its first page, or keeps a page that was. -/
theorem mmapPages_false (h : (mmapPages flags words vaddr n off s).1 = false) :
    n ≠ 0 ∧ ((NoPage s ∧ (mmapPages flags words vaddr n off s).2 = s) ∨
      ∃ p, s.Free p ∧ ¬(mmapPages flags words vaddr n off s).2.Free p) := by
  cases n with
  | zero => cases h
  | succ n =>
    refine ⟨Nat.succ_ne_zero n, ?_⟩
    rcases ha : pmmAllocPage s with ⟨m, s₁⟩
    rcases pmmAllocPage_taken ha with ⟨hno, rfl, rfl⟩ | hn
    · refine .inl ⟨hno, ?_⟩
      unfold mmapPages
      rw [ha]
      rfl
    · refine .inr ⟨m, hn.free, fun hp => (hn.still m ?_).2 rfl⟩
      unfold mmapPages at hp
      rw [ha] at hp
      cases m with
      | zero => exact hp
      | succ m =>
        have hfill : (fillPage s₁ (m + 1) fun i => words (off + i)).Free (m + 1) := vmmMapPage_still (mmapPages_still hp)
        exact hfill

theorem pmmAllocPage_noPage (h : NoPage s) : pmmAllocPage s = (0, s) := by
  rcases ha : pmmAllocPage s with ⟨m, s₁⟩
  rcases pmmAllocPage_taken ha with ⟨-, rfl, rfl⟩ | hn
  · rfl
  · exact absurd hn.free (h m)

theorem mmapPages_noPage (h : NoPage s) : (mmapPages flags words vaddr (n + 1) off s).1 = false := by
  unfold mmapPages
  rw [pmmAllocPage_noPage h]
  rfl

/-- The last page there was goes to the first turn. -/
theorem mmapPages_lastPage {m : Nat} (ha : pmmAllocPage s = (m + 1, s')) (h : NoPage s') :
    (mmapPages flags words vaddr (n + 2) off s).1 = false := by
  unfold mmapPages
  rw [ha]
  refine mmapPages_noPage fun p hp => h p ?_
  have hfill : (fillPage s' (m + 1) fun i => words (off + i)).Free p := vmmMapPage_still hp
  exact hfill

/-! ## `sys_mmap` -/

section Mmap

variable {s : System} {vm : Mm.State} {k addrHint length prot mapFlags offset vaddr : Nat} {file : Option MappedFile}
  {fdOk pages : Bool} {node : Option Nat} {mm : Mm.MmStruct} {e : Int}

/-- The areas are touched last. -/
theorem vm_of_error (h : (Mm.sysMmap vm k addrHint length prot mapFlags offset fdOk pages node).1 = .error e) :
    (Mm.sysMmap vm k addrHint length prot mapFlags offset fdOk pages node).2 = vm := by
  unfold Mm.sysMmap at h ⊢
  by_cases h0 : length = 0
  · rw [if_pos h0]
  rw [if_neg h0] at h ⊢
  by_cases hoff : offset % Mm.pageSize ≠ 0
  · rw [if_pos hoff]
  rw [if_neg hoff] at h ⊢
  cases hk : vm.mms k with
  | none =>
    rw [hk] at h
    cases h
  | some mm =>
    rw [hk] at h
    dsimp only at h ⊢
    cases ha : Mm.mmapAddr vm mm addrHint (Mm.pageAlign length) mapFlags with
    | error => rfl
    | ok vaddr =>
      rw [ha] at h
      dsimp only at h ⊢
      by_cases hfd : Mm.has mapFlags Mm.mapAnonymous = false ∧ fdOk = false
      · rw [if_pos hfd]
      rw [if_neg hfd] at h ⊢
      by_cases hpages : pages = false
      · rw [if_pos hpages]
      rw [if_neg hpages] at h
      rcases hnode : Mm.vmaAlloc vm node with ⟨_ | i, vm'⟩
      · rw [hnode] at h
        cases h
      · rw [hnode] at h
        cases h

theorem mmapTarget_some (h : mmapTarget s k addrHint length mapFlags offset = some vaddr) :
    length ≠ 0 ∧ offset % pageSize = 0 ∧
      ∃ mm, s.vm.mms k = some mm ∧ Mm.mmapAddr s.vm mm addrHint (Mm.pageAlign length) mapFlags = .ok vaddr := by
  unfold mmapTarget at h
  by_cases hlow : length = 0 ∨ offset % pageSize ≠ 0
  · rw [if_pos hlow] at h
    cases h
  rw [if_neg hlow] at h
  obtain ⟨h0, hoff⟩ := not_or.1 hlow
  obtain ⟨mm, hk, ha⟩ := Option.bind_eq_some_iff.1 h
  refine ⟨h0, not_not.1 hoff, mm, hk, ?_⟩
  cases hm : Mm.mmapAddr s.vm mm addrHint (Mm.pageAlign length) mapFlags with
  | error =>
    rw [hm] at ha
    cases ha
  | ok =>
    rw [hm] at ha
    cases ha
    rfl

/-- **With an address and something to fill the pages from**, the pages decide. -/
theorem sysMmap_fst (ht : mmapTarget s k addrHint length mapFlags offset = some vaddr)
    (hfd : ¬(Mm.has mapFlags Mm.mapAnonymous = false ∧ file.isSome = false)) :
    (sysMmap s k addrHint length prot mapFlags offset file node).1 =
      if (mmapFill (onCpu s k) vaddr (Mm.pageAlign length) prot mapFlags offset file).1 = false then .error (-Mm.enomem)
      else .ok vaddr := by
  obtain ⟨h0, hoff, mm, hk, ha⟩ := mmapTarget_some ht
  have hoff' : ¬offset % Mm.pageSize ≠ 0 := not_not.2 hoff
  unfold sysMmap Mm.sysMmap
  dsimp only
  rw [ht, hk, if_neg h0, if_neg hoff']
  dsimp only
  rw [ha]
  dsimp only
  rw [if_neg hfd]
  split
  · rfl
  · rcases Mm.vmaAlloc s.vm node with ⟨_ | i, vm'⟩
    · rfl
    · rfl

/-- A page loop of `sys_mmap` that fails, or a file that is not there. -/
theorem mmapFill_false {pt : State} (h : (mmapFill pt vaddr length prot mapFlags offset file).1 = false) :
    (Mm.has mapFlags Mm.mapAnonymous = false ∧ file = none ∧
      (mmapFill pt vaddr length prot mapFlags offset file).2 = pt) ∨
    ((Mm.has mapFlags Mm.mapAnonymous = true ∨ ∃ f, file = some f ∧ f.physBase = 0) ∧
      ((NoPage pt ∧ (mmapFill pt vaddr length prot mapFlags offset file).2 = pt) ∨
        ∃ p, pt.Free p ∧ ¬(mmapFill pt vaddr length prot mapFlags offset file).2.Free p)) := by
  unfold mmapFill at h ⊢
  by_cases hanon : Mm.has mapFlags Mm.mapAnonymous = true
  · rw [if_pos hanon] at h ⊢
    exact .inr ⟨.inl hanon, (mmapPages_false h).2⟩
  rw [if_neg hanon] at h ⊢
  cases file with
  | none => exact .inl ⟨Bool.eq_false_iff.2 hanon, rfl, rfl⟩
  | some f =>
    dsimp only at h ⊢
    by_cases hphys : f.physBase ≠ 0
    · rw [if_pos hphys] at h
      cases h
    rw [if_neg hphys] at h ⊢
    exact .inr ⟨.inr ⟨f, rfl, not_not.1 hphys⟩, (mmapPages_false h).2⟩

/-- **What a call of `sys_mmap` that fails did**: nothing when it came before the first page or no page was free, and else
it keeps a page. -/
theorem sysMmap_failed (h : (sysMmap s k addrHint length prot mapFlags offset file node).1 = .error e) :
    (sysMmap s k addrHint length prot mapFlags offset file node).2.vm = s.vm ∧
    (((sysMmap s k addrHint length prot mapFlags offset file node).2.pt = onCpu s k ∧
        ((mmapTarget s k addrHint length mapFlags offset).isSome = true →
          Mm.has mapFlags Mm.mapAnonymous = true ∨ file.isSome = true → NoPage s.pt)) ∨
      ((mmapTarget s k addrHint length mapFlags offset).isSome = true ∧
        (Mm.has mapFlags Mm.mapAnonymous = true ∨ ∃ f, file = some f ∧ f.physBase = 0) ∧
        ∃ p, s.pt.Free p ∧ ¬(sysMmap s k addrHint length prot mapFlags offset file node).2.pt.Free p)) := by
  refine ⟨vm_of_error h, ?_⟩
  cases ht : mmapTarget s k addrHint length mapFlags offset with
  | none =>
    refine .inl ⟨?_, fun hsome => absurd hsome Bool.false_ne_true⟩
    unfold sysMmap
    rw [ht]
  | some vaddr =>
    have hpt : (sysMmap s k addrHint length prot mapFlags offset file node).2.pt =
        (mmapFill (onCpu s k) vaddr (Mm.pageAlign length) prot mapFlags offset file).2 := by
      unfold sysMmap
      rw [ht]
    rw [hpt]
    by_cases hfd : Mm.has mapFlags Mm.mapAnonymous = false ∧ file.isSome = false
    · -- EBADF
      obtain ⟨hanon, hnone⟩ := hfd
      cases file with
      | some f => cases hnone
      | none =>
        refine .inl ⟨?_, fun _ hor => ?_⟩
        · unfold mmapFill
          rw [if_neg (Bool.eq_false_iff.1 hanon)]
        · rw [hanon] at hor
          exact absurd hor (by decide)
    · have hfalse : (mmapFill (onCpu s k) vaddr (Mm.pageAlign length) prot mapFlags offset file).1 = false := by
        by_contra hne
        rw [sysMmap_fst ht hfd, if_neg hne] at h
        cases h
      rcases mmapFill_false hfalse with ⟨h1, h2, -⟩ | ⟨hasks, ⟨hno, hsame⟩ | hlost⟩
      · exact absurd ⟨h1, congrArg Option.isSome h2⟩ hfd
      · exact .inl ⟨hsame, fun _ _ => hno⟩
      · exact .inr ⟨rfl, hasks, hlost⟩

end Mmap

/-! ## A call of `sys_mmap` -/

section Calls

variable {w : World} {t k addrHint length prot mapFlags offset addr : Nat} {fd : Int} {node : Option Nat} {e : Int}
  {what : Nat → MappedFile} {mm mm' : Mm.MmStruct}

/-- **The areas and the files are as they were, and so is the memory.** -/
theorem Unchanged.of_eq {w' : World} (hvm : w'.vm = w.vm) (hpt : w'.pt = onCpu w.toSystem k) (hpgd : w'.pgd = w.pgd)
    (hpool : w'.files.pool = w.files.pool) : Unchanged w w' k := by
  refine ⟨fun mm hmm => ⟨mm, ?_, ?_, ?_, rfl, rfl⟩, by rw [hpgd], fun a _ => by rw [hpt, onCpu], hpool, fun p => ?_⟩
  · rw [hvm]
    exact hmm
  · rw [hvm]
  · rw [hvm]
  · rw [hpt]
    exact Iff.rfl

theorem Unchanged.not_of_lost {w' : World} (h : ∃ p, w.pt.Free p ∧ ¬w'.pt.Free p) : ¬Unchanged w w' k := by
  obtain ⟨p, hp, hno⟩ := h
  exact fun hun => hno ((hun.free p).2 hp)

/-- What `sys_mmap` of a task does is what it does with the file of the descriptor. -/
theorem sysMmapFd_eq (w : World) (t k addrHint length prot mapFlags offset : Nat) (fd : Int) (what : Nat → MappedFile)
    (node : Option Nat) : ∃ file files,
      sysMmapFd w t k addrHint length prot mapFlags offset fd what node =
        ((sysMmap w.toSystem k addrHint length prot mapFlags offset file node).1,
          ⟨(sysMmap w.toSystem k addrHint length prot mapFlags offset file node).2, files⟩) ∧
      ((mmapTarget w.toSystem k addrHint length mapFlags offset).isSome = true → Mm.has mapFlags Mm.mapAnonymous = false →
        file = (w.files.lookup t fd).map what) ∧
      ((∀ f, w.files.lookup t fd = some f → ∃ c, 0 < c ∧ w.files.pool.count f = some c) →
        (∃ e, (sysMmap w.toSystem k addrHint length prot mapFlags offset file node).1 = .error e) →
        files.pool = w.files.pool) := by
  unfold sysMmapFd
  by_cases hlow : (mmapTarget w.toSystem k addrHint length mapFlags offset).isNone ∨
      Mm.has mapFlags Mm.mapAnonymous = true
  · rw [if_pos hlow]
    refine ⟨none, w.files, rfl, fun hsome hanon => ?_, fun _ _ => rfl⟩
    rcases hlow with hnone | htrue
    · rw [Option.isNone_iff_eq_none.1 hnone] at hsome
      cases hsome
    · rw [hanon] at htrue
      cases htrue
  rw [if_neg hlow]
  cases hl : w.files.lookup t fd with
  | none =>
    have hget : Files.fget w.files t fd = (none, w.files) := by
      unfold Files.fget
      rw [hl]
    rw [hget]
    exact ⟨none, w.files, rfl, fun _ _ => rfl, fun _ _ => rfl⟩
  | some f =>
    have hget : Files.fget w.files t fd = (some f, w.files.incFile f) := by
      unfold Files.fget
      rw [hl]
    rw [hget]
    refine ⟨some (what f), _, rfl, fun _ _ => rfl, ?_⟩
    rintro hc ⟨e, he⟩
    obtain ⟨c, hpos, hcount⟩ := hc f rfl
    rw [he, if_neg fun hkept => Bool.false_ne_true hkept.2.1]
    exact Pool.dec_inc hpos hcount

theorem unchanged_mmap_iff (hw : InOrder w t k)
    (h : (sysMmapFd w t k addrHint length prot mapFlags offset fd what node).1 = .error e) :
    Unchanged w (sysMmapFd w t k addrHint length prot mapFlags offset fd what node).2 k ↔
      (AsksPages what w t k addrHint length mapFlags offset fd → NoPage w.pt) := by
  obtain ⟨file, files, heq, hfile, hpool⟩ := sysMmapFd_eq w t k addrHint length prot mapFlags offset fd what node
  rw [heq] at h ⊢
  obtain ⟨hvm, hclean | ⟨hsome, hfill, hlost⟩⟩ := sysMmap_failed h
  · refine iff_of_true (.of_eq hvm hclean.1 rfl (hpool (hw.counted fd) ⟨e, h⟩)) ?_
    rintro ⟨hsome, hfill⟩
    refine hclean.2 hsome ?_
    by_cases hanon : Mm.has mapFlags Mm.mapAnonymous = true
    · exact .inl hanon
    · obtain ⟨f, hl, -⟩ := hfill.resolve_left hanon
      rw [hfile hsome (Bool.eq_false_iff.2 hanon), hl]
      exact .inr rfl
  · refine iff_of_false (Unchanged.not_of_lost hlost) fun hno => ?_
    obtain ⟨p, hp, -⟩ := hlost
    refine hno ⟨hsome, ?_⟩ p hp
    by_cases hanon : Mm.has mapFlags Mm.mapAnonymous = true
    · exact .inl hanon
    · obtain ⟨f, hf, hphys⟩ := hfill.resolve_left hanon
      rw [hfile hsome (Bool.eq_false_iff.2 hanon)] at hf
      obtain ⟨g, hl, rfl⟩ := Option.map_eq_some_iff.1 hf
      exact .inr ⟨g, hl, hphys⟩

/-! ## A call of `sys_brk` -/

theorem setBrk_self (hk : w.vm.mms k = some mm) : Mm.setBrk w.vm k mm.brk = w.vm := by
  unfold Mm.setBrk
  rw [hk]
  show { w.vm with mms := Function.update w.vm.mms k (some mm) } = w.vm
  rw [← hk, Function.update_eq_self]

/-- The heap area that ends there already stays as it is. -/
theorem brkGrow_self {growStart : Nat} {vm : Mm.State}
    (h : (Mm.heapEndingAt vm mm growStart).isSome = true ∨ Mm.NoNode vm node) :
    Mm.brkGrow vm k mm growStart growStart node = vm := by
  unfold Mm.brkGrow
  cases hat : Mm.heapEndingAt vm mm growStart with
  | some i =>
    have hend : (vm.vmas i).endAddr = growStart := by
      have := List.find?_some hat
      simp only [decide_eq_true_eq] at this
      exact this.2
    dsimp only
    rw [← hend]
    show { vm with vmas := Function.update vm.vmas i (vm.vmas i) } = vm
    rw [Function.update_eq_self]
  | none =>
    rw [hat] at h
    rw [Mm.noNode_iff.1 (h.resolve_left Bool.false_ne_true)]

/-- **An empty area is new on the list**: no heap area ended there. -/
theorem brkGrow_areas {growStart b : Nat} {vm : Mm.State} {l : List Nat} (hl : Mm.Listed vm mm l)
    (hprev : ∀ j ∈ l, ∀ p ∈ vm.links.prev j, p ∈ l) (hb : ∀ j, vm.live j = true → j < vm.bound) (hk : vm.mms k = some mm)
    (hat : Mm.heapEndingAt vm mm growStart = none) (hnode : ¬Mm.NoNode vm node)
    (hk' : (Mm.setBrk (Mm.brkGrow vm k mm growStart growStart node) k b).mms k = some mm') :
    (Mm.setBrk (Mm.brkGrow vm k mm growStart growStart node) k b).areas mm' ≠ vm.areas mm := by
  rcases ha : Mm.vmaAlloc vm node with ⟨_ | i, vm'⟩
  · exact absurd (congrArg Prod.fst ha) hnode
  obtain ⟨v, hv⟩ : ∃ v : Mm.Vma, v = ⟨growStart, growStart, Mm.vmRead ||| Mm.vmWrite ||| Mm.vmHeap, Mm.vmHeap, 0⟩ :=
    ⟨_, rfl⟩
  obtain ⟨mm₁, hk₁, hmem, hvi⟩ := hl.mem_insertVma hprev hb hk ha v
  -- the fields written after the insertion are not those of the list
  obtain ⟨total, hgrow⟩ : ∃ total, Mm.setBrk (Mm.brkGrow vm k mm growStart growStart node) k b =
      (Mm.insertVma (vm'.setVma i v) k i).setMm k { mm₁ with totalVm := total, brk := b } := by
    refine ⟨add64 mm₁.totalVm (sub64 growStart growStart / Mm.pageSize), ?_⟩
    unfold Mm.brkGrow
    rw [hat]
    dsimp only
    rw [ha]
    dsimp only
    unfold Mm.addTotalVm
    rw [← hv, hk₁]
    unfold Mm.setBrk Mm.State.setMm
    dsimp only
    rw [Function.update_self]
    dsimp only
    rw [Function.update_idem]
  rw [hgrow] at hk' ⊢
  have hmm : mm' = { mm₁ with totalVm := total, brk := b } := Option.some.inj (hk'.symm.trans (Function.update_self ..))
  intro heq
  have hnew : v ∈ vm.areas mm := by
    rw [← heq, hmm]
    exact List.mem_map.2 ⟨i, hmem, hvi⟩
  obtain ⟨j, hj, hvj⟩ := List.mem_map.1 hnew
  have hno := List.find?_eq_none.1 hat j hj
  rw [hvj, hv] at hno
  have hheap : Mm.has (Mm.vmRead ||| Mm.vmWrite ||| Mm.vmHeap) Mm.vmHeap = true := by decide
  exact hno (decide_eq_true ⟨hheap, rfl⟩)

theorem brkPages_of_not (hk : w.vm.mms k = some mm) (h : ¬Mm.InHeap mm addr ∨ Mm.pageAlign addr = mm.brk) :
    brkPages w.toSystem k addr = (true, onCpu w.toSystem k) := by
  unfold brkPages
  rw [hk]
  exact if_pos h

theorem brkPages_of_grow (hk : w.vm.mms k = some mm) (hin : Mm.InHeap mm addr) (hgrow : mm.brk < Mm.pageAlign addr) :
    brkPages w.toSystem k addr = mmapPages (protFlags (Mm.protRead ||| Mm.protWrite)) (fun _ => 0) (Mm.pageAlign mm.brk)
      (sub64 (Mm.pageAlign addr) (Mm.pageAlign mm.brk) / pageSize) 0 (onCpu w.toSystem k) := by
  unfold brkPages
  rw [hk]
  dsimp only
  rw [if_neg (not_or.2 ⟨not_not.2 hin, Nat.ne_of_gt hgrow⟩), if_pos hgrow]

/-- A break that stays below the end of its page, or for which there is no page. -/
theorem unchanged_grow_iff (hw : InOrder w t k) (hk : w.vm.mms k = some mm) (hin : Mm.InHeap mm addr)
    (hgrow : mm.brk < Mm.pageAlign addr) (hsame : Mm.Moves mm addr (brkPages w.toSystem k addr).1 → addr = mm.brk) :
    Unchanged w ⟨(sysBrk w.toSystem k addr node).2, w.files⟩ k ↔
      if Mm.pageAlign addr = Mm.pageAlign mm.brk then
        (Mm.heapEndingAt w.vm mm (Mm.pageAlign mm.brk)).isSome = true ∨ Mm.NoNode w.vm node
      else NoPage w.pt := by
  have hvm : (sysBrk w.toSystem k addr node).2.vm = (Mm.sysBrk w.vm k addr (brkPages w.toSystem k addr).1 node).2 := rfl
  have hpages := brkPages_of_grow hk hin hgrow
  have hself : sub64 (Mm.pageAlign mm.brk) (Mm.pageAlign mm.brk) = 0 := by
    have hfit := hw.brk mm hk
    have hlt : Mm.pageAlign mm.brk < mm.brk + 4096 := (alignUp_bounds (by decide) hfit).2
    rw [sub64_of_le (Nat.le_refl _) (by omega), Nat.sub_self]
  have hpt : (sysBrk w.toSystem k addr node).2.pt = (mmapPages (protFlags (Mm.protRead ||| Mm.protWrite)) (fun _ => 0)
      (Mm.pageAlign mm.brk) (sub64 (Mm.pageAlign addr) (Mm.pageAlign mm.brk) / pageSize) 0 (onCpu w.toSystem k)).2 :=
    congrArg Prod.snd hpages
  cases hfound : (brkPages w.toSystem k addr).1 with
  | false =>
    have hvm' : (sysBrk w.toSystem k addr node).2.vm = w.vm := by
      rw [hvm, Mm.sysBrk_of_not hk fun hmoves => Bool.false_ne_true (hfound ▸ hmoves.2 hgrow)]
    rw [hpages] at hfound
    obtain ⟨hturns, hrest⟩ := mmapPages_false hfound
    have hne : Mm.pageAlign addr ≠ Mm.pageAlign mm.brk := by
      intro heq
      rw [heq, hself] at hturns
      exact hturns rfl
    rw [if_neg hne]
    rcases hrest with ⟨hno, hstate⟩ | hlost
    · exact iff_of_true (.of_eq hvm' (hpt.trans hstate) rfl rfl) hno
    · refine iff_of_false (Unchanged.not_of_lost ?_) fun hno => ?_
      · obtain ⟨p, hp, hnot⟩ := hlost
        exact ⟨p, hp, fun hp' => hnot (hpt ▸ hp')⟩
      · obtain ⟨p, hp, -⟩ := hlost
        exact hno p hp
  | true =>
    have hmoves : Mm.Moves mm addr (brkPages w.toSystem k addr).1 := ⟨hin, fun _ => hfound⟩
    have haddr := hsame hmoves
    have hvm' : (sysBrk w.toSystem k addr node).2.vm =
        Mm.setBrk (Mm.brkGrow w.vm k mm (Mm.pageAlign mm.brk) (Mm.pageAlign mm.brk) node) k mm.brk := by
      rw [hvm, Mm.sysBrk_of_moves hk hmoves, Mm.brkAreas, if_neg (Nat.ne_of_gt hgrow), if_pos hgrow, haddr]
    rw [haddr, hself] at hpt
    rw [haddr] at hvm' ⊢
    rw [if_pos rfl]
    by_cases hcase : (Mm.heapEndingAt w.vm mm (Mm.pageAlign mm.brk)).isSome = true ∨ Mm.NoNode w.vm node
    · rw [brkGrow_self hcase, setBrk_self hk] at hvm'
      exact iff_of_true (.of_eq hvm' hpt rfl rfl) hcase
    · refine iff_of_false (fun hun => ?_) hcase
      obtain ⟨hnone, hnode⟩ := not_or.1 hcase
      obtain ⟨mm', hmm', -, hareas, -⟩ := hun.areas mm hk
      obtain ⟨l, hl, hprev⟩ := hw.list mm hk
      dsimp only at hmm' hareas
      rw [hvm'] at hmm' hareas
      exact brkGrow_areas hl hprev hw.bound hk (Option.not_isSome_iff_eq_none.1 hnone) hnode hmm' hareas

theorem unchanged_brk_iff (hw : InOrder w t k)
    (h : Mm.brkOf (sysBrk w.toSystem k addr node).2.vm k = Mm.brkOf w.vm k) :
    Unchanged w ⟨(sysBrk w.toSystem k addr node).2, w.files⟩ k ↔ FailsClean what w t k (.brk addr node) := by
  cases hk : w.vm.mms k with
  | none =>
    have hpages : brkPages w.toSystem k addr = (true, onCpu w.toSystem k) := by
      unfold brkPages
      rw [hk]
    have hvm : (sysBrk w.toSystem k addr node).2.vm = w.vm := by
      unfold sysBrk Mm.sysBrk
      rw [hk]
    refine iff_of_true (.of_eq hvm (congrArg Prod.snd hpages) rfl rfl) fun mm hmm => ?_
    rw [hk] at hmm
    cases hmm
  | some mm =>
    have hclean : FailsClean what w t k (.brk addr node) ↔ (Mm.InHeap mm addr → mm.brk < Mm.pageAlign addr →
        if Mm.pageAlign addr = Mm.pageAlign mm.brk then
          (Mm.heapEndingAt w.vm mm (Mm.pageAlign mm.brk)).isSome = true ∨ Mm.NoNode w.vm node
        else NoPage w.pt) :=
      ⟨fun hc => hc mm hk, fun hc mm' hk' => Option.some.inj (hk.symm.trans hk') ▸ hc⟩
    rw [hclean]
    have hvm : (sysBrk w.toSystem k addr node).2.vm = (Mm.sysBrk w.vm k addr (brkPages w.toSystem k addr).1 node).2 := rfl
    have hpt : (sysBrk w.toSystem k addr node).2.pt = (brkPages w.toSystem k addr).2 := rfl
    -- a call that is let pass and moves the break to where it is
    have hsame : Mm.Moves mm addr (brkPages w.toSystem k addr).1 → addr = mm.brk := by
      intro hmoves
      have hbrk := Mm.brkOf_sysBrk addr (brkPages w.toSystem k addr).1 node hk
      rw [← hvm, h, Mm.sysBrk_of_moves hk hmoves] at hbrk
      unfold Mm.brkOf at hbrk
      rw [hk] at hbrk
      exact (Option.some.inj hbrk).symm
    by_cases hin : Mm.InHeap mm addr
    swap
    · have hvm' : (sysBrk w.toSystem k addr node).2.vm = w.vm := by
        rw [hvm, Mm.sysBrk_of_not hk fun hmoves => hin hmoves.1]
      rw [brkPages_of_not hk (.inl hin)] at hpt
      exact iff_of_true (.of_eq hvm' hpt rfl rfl) fun hin' => absurd hin' hin
    by_cases heq : Mm.pageAlign addr = mm.brk
    · have hmoves : Mm.Moves mm addr (brkPages w.toSystem k addr).1 :=
        ⟨hin, fun hlt => absurd heq (Nat.ne_of_gt hlt)⟩
      have hvm' : (sysBrk w.toSystem k addr node).2.vm = w.vm := by
        rw [hvm, Mm.sysBrk_of_moves hk hmoves, Mm.brkAreas, if_pos heq, hsame hmoves]
        exact setBrk_self hk
      rw [brkPages_of_not hk (.inr heq)] at hpt
      exact iff_of_true (.of_eq hvm' hpt rfl rfl) fun _ hlt => absurd heq (Nat.ne_of_gt hlt)
    by_cases hgrow : mm.brk < Mm.pageAlign addr
    · rw [unchanged_grow_iff hw hk hin hgrow hsame]
      exact ⟨fun hc _ _ => hc, fun hc => hc hin hgrow⟩
    · have hmoves : Mm.Moves mm addr (brkPages w.toSystem k addr).1 := ⟨hin, fun hlt => absurd hlt hgrow⟩
      have haddr := hsame hmoves
      have hle := Mm.le_pageAlign (hw.brk mm hk)
      rw [haddr] at hgrow heq
      omega

/-- **A call that fails changes nothing exactly when no page was free for it to take**, or none was asked for; and a break
that is where it is asked to be gets no empty area. -/
theorem unchanged_iff (what : Nat → MappedFile) (w : World) (t k : Nat) (c : Call) (hw : InOrder w t k)
    (hfail : c.Fails what w t k) : Unchanged w (c.run what w t k) k ↔ FailsClean what w t k c := by
  cases c with
  | mmap addrHint length prot flags offset fd node =>
    obtain ⟨e, he⟩ := hfail
    exact unchanged_mmap_iff hw he
  | brk addr node => exact unchanged_brk_iff hw hfail

end Calls

/-- No file is open. -/
def noFiles : Files.State := ⟨⟨fun _ => none, false⟩, fun _ => none, fun _ => none, 0, fun _ => none, fun _ => false, []⟩

def noFile : Nat → MappedFile := fun _ => ⟨0, fun _ => 0⟩

/-- One area, a root without tables, and the pages `free`. -/
def oneAreaWorld (free : Nat → Bool) : World :=
  { vm := oneArea ⟨0x400000, 0x401000, Mm.vmRead, Mm.vmRead, 0⟩
    pt := { emptyRoot with pageBitmap := free }
    pgd := fun _ => 0x100000
    files := noFiles }

theorem oneAreaWorld_inOrder (free : Nat → Bool) : InOrder (oneAreaWorld free) 0 0 := by
  refine ⟨fun mm hmm => ?_, fun i hi => ?_, fun mm hmm => ?_, fun fd f hl => ?_⟩
  · cases hmm
    refine ⟨[0], ⟨⟨rfl, rfl⟩, List.nodup_singleton 0, fun i hi => ?_⟩, fun j _ p hp => ?_⟩
    · rw [List.mem_singleton.1 hi]
      rfl
    · cases hp
  · rw [beq_iff_eq.1 hi]
    exact Nat.zero_lt_one
  · cases hmm
    exact (by decide : 0x401000 + 4095 < 18446744073709551616)
  · have hnone : (oneAreaWorld free).files.lookup 0 fd = none := ite_self none
    rw [hnone] at hl
    cases hl

/-- `mmap(NULL, 0x2000, PROT_READ | PROT_WRITE, MAP_PRIVATE | MAP_ANONYMOUS, -1, 0)`. -/
def mmapTwo : Call := .mmap 0 0x2000 3 (mapPrivate ||| Mm.mapAnonymous) 0 (-1) (some 1)

theorem mmapTwo_target (free : Nat → Bool) :
    mmapTarget (oneAreaWorld free).toSystem 0 0 0x2000 (mapPrivate ||| Mm.mapAnonymous) 0 = some 0x7FFEFFFFE000 := by
  show mmapTarget (oneAreaWorld fun _ => false).toSystem 0 0 0x2000 (mapPrivate ||| Mm.mapAnonymous) 0 =
    some 0x7FFEFFFFE000
  decide +kernel

/-- It fails with its page loop. -/
theorem mmapTwo_fails {free : Nat → Bool} (h : (mmapPages (protFlags 3) (fun _ => 0) 0x7FFEFFFFE000 2 0
    (onCpu (oneAreaWorld free).toSystem 0)).1 = false) : mmapTwo.Fails noFile (oneAreaWorld free) 0 0 := by
  refine ⟨-Mm.enomem, ?_⟩
  unfold sysMmapFd
  rw [if_pos (.inr rfl)]
  exact (sysMmap_fst (mmapTwo_target free) (by decide)).trans (if_pos h)

theorem unchanged_iff_noPage : Unchanged (oneAreaWorld fun _ => false)
    (mmapTwo.run noFile (oneAreaWorld fun _ => false) 0 0) 0 := by
  have hno : NoPage (oneAreaWorld fun _ => false).pt := by
    rintro p ⟨i, -, hfree, -⟩
    cases hfree
  have hfail := mmapTwo_fails (mmapPages_noPage hno)
  exact (unchanged_iff noFile _ 0 0 mmapTwo (oneAreaWorld_inOrder _) hfail).2 fun _ => hno

/-- One page is free. -/
def lastPage : World := oneAreaWorld fun i => decide (i = 1)

/-- **The second page is not found**: the call answers -ENOMEM and keeps the first one. -/
theorem not_unchanged_lastPage : InOrder lastPage 0 0 ∧ mmapTwo.Fails noFile lastPage 0 0 ∧
    ¬Unchanged lastPage (mmapTwo.run noFile lastPage 0 0) 0 := by
  have ha : pmmAllocPage (onCpu lastPage.toSystem 0) = (0x101000, (pmmAllocPage (onCpu lastPage.toSystem 0)).2) :=
    Prod.ext (by decide +kernel) rfl
  have hno : NoPage (pmmAllocPage (onCpu lastPage.toSystem 0)).2 := by
    intro p hp
    have htaken := (pmmAllocPage_spec ha).resolve_left fun hc => Nat.succ_ne_zero 0x100FFF hc.1
    obtain ⟨⟨i, -, hfree, rfl⟩, hne⟩ := htaken.still p hp
    have hi : i = 1 := of_decide_eq_true hfree
    exact hne (hi ▸ rfl)
  have hfail : mmapTwo.Fails noFile lastPage 0 0 := mmapTwo_fails (mmapPages_lastPage ha hno)
  refine ⟨oneAreaWorld_inOrder _, hfail, fun hun => ?_⟩
  obtain ⟨e, he⟩ := hfail
  have hasks : AsksPages noFile lastPage 0 0 0 0x2000 (mapPrivate ||| Mm.mapAnonymous) 0 (-1) :=
    ⟨congrArg Option.isSome (mmapTwo_target _), .inl (by decide)⟩
  exact (unchanged_mmap_iff (oneAreaWorld_inOrder _) he).1 hun hasks 0x101000 ⟨1, by decide, rfl, rfl⟩

end AddrSpace
end Pico
