import Picomimi.Lib.Sweep
import Picomimi.StackGrowth
/-!
# Mprotect — `sys_mprotect` on its range, and beside it

`sys_mprotect` maps the pages of the range anew, one by one, and gives every area that meets the range the new `flags`, the
whole area: both are sweeps.  `mprotect_iff` says when areas and entries agree with the call inside the range and stay as
they were outside it: no area reaches out of the range with other permissions, and the pages that are mapped may be read.
-/
namespace Pico
namespace AddrSpace

open Lib Paging

/-- The end of the range, were there no end of the addresses. -/
def rangeEnd (addr len : Nat) : Nat := addr + (len + (pageSize - 1)) / pageSize * pageSize

/-- The range of the call: whole pages. -/
def InRange (addr len a : Nat) : Prop := addr ≤ a ∧ a < rangeEnd addr len

instance (addr len a : Nat) : Decidable (InRange addr len a) := inferInstanceAs (Decidable (_ ∧ _))

/-- The area has the address. -/
def Covers (v : Mm.Vma) (a : Nat) : Prop := v.start ≤ a ∧ a < v.endAddr

instance (v : Mm.Vma) (a : Nat) : Decidable (Covers v a) := inferInstanceAs (Decidable (_ ∧ _))

/-- The same permissions. -/
def SamePerm (f g : Nat) : Prop := ∀ bit ∈ [Mm.vmRead, Mm.vmWrite, Mm.vmExec], Mm.has f bit = Mm.has g bit

instance (f g : Nat) : Decidable (SamePerm f g) := inferInstanceAs (Decidable (∀ _ ∈ _, _))

/-- **`mprotect` acts on its range only.** -/
structure RangeOnly (s s' : System) (k : Nat) (mm : Mm.MmStruct) (addr len prot : Nat) : Prop where
  list : s'.vm.nodes mm = s.vm.nodes mm
  areas : ∀ i, (s'.vm.vmas i).start = (s.vm.vmas i).start ∧ (s'.vm.vmas i).endAddr = (s.vm.vmas i).endAddr
  insideArea : ∀ i ∈ s.vm.nodes mm, ∀ a, InRange addr len a → Covers (s.vm.vmas i) a →
    SamePerm (s'.vm.vmas i).flags (protBits prot)
  insideEntry : ∀ i ∈ s.vm.nodes mm, ∀ a, a < userTop → InRange addr len a → Covers (s.vm.vmas i) a →
    Present (leaf s'.pt (s'.pgd k) a) → Conforms (leaf s'.pt (s'.pgd k) a) (protBits prot)
  outsideArea : ∀ i ∈ s.vm.nodes mm, ∀ a, ¬InRange addr len a → Covers (s.vm.vmas i) a →
    SamePerm (s'.vm.vmas i).flags (s.vm.vmas i).flags
  outsideEntry : ∀ a, a < userTop → ¬InRange addr len a → leaf s'.pt (s'.pgd k) a = leaf s.pt (s.pgd k) a

/-! ## When it does -/

/-- The end as `sys_mprotect` computes it. -/
def protectEnd (addr len : Nat) : Nat := add64 addr (Mm.pageAlign len)

/-- The test of the loop over the areas. -/
def Touched (addr len : Nat) (v : Mm.Vma) : Prop := ¬(v.endAddr ≤ addr ∨ protectEnd addr len ≤ v.start)

/-- `vmm_map_page` maps the page anew: it is not page 0, and `vmm_user_virt_to_phys` does not answer 0. -/
def Remaps (page e : Nat) : Prop := page ≠ 0 ∧ Present e ∧ frameOf e ≠ 0

/-- The range is in the user half, or wraps. -/
def UserRange (addr len : Nat) : Prop := protectEnd addr len ≤ userTop ∨ protectEnd addr len ≤ addr

instance (addr len : Nat) (v : Mm.Vma) : Decidable (Touched addr len v) := inferInstanceAs (Decidable (¬_))
instance (page e : Nat) : Decidable (Remaps page e) := inferInstanceAs (Decidable (_ ∧ _))
instance (addr len : Nat) : Decidable (UserRange addr len) := inferInstanceAs (Decidable (_ ∨ _))

/-- **What a call must find**, when it has anything to do. -/
structure ProtectOk (s : System) (k : Nat) (mm : Mm.MmStruct) (addr len prot : Nat) : Prop where
  reached : ∀ i ∈ s.vm.nodes mm, (s.vm.vmas i).start < rangeEnd addr len → addr < (s.vm.vmas i).endAddr →
    Touched addr len (s.vm.vmas i) ∨ SamePerm (s.vm.vmas i).flags (protBits prot)
  within : ∀ i ∈ s.vm.nodes mm, Touched addr len (s.vm.vmas i) →
    (addr ≤ (s.vm.vmas i).start ∧ (s.vm.vmas i).endAddr ≤ rangeEnd addr len) ∨
      SamePerm (s.vm.vmas i).flags (protBits prot)
  pages : ∀ i ∈ s.vm.nodes mm, ∀ a, a < userTop → InRange addr len a → Covers (s.vm.vmas i) a →
    Present (leaf s.pt (s.pgd k) a) →
    if a < protectEnd addr len ∧ Remaps (alignDown a pageSize) (leaf s.pt (s.pgd k) a) then Mm.has prot Mm.protRead = true
    else Conforms (leaf s.pt (s.pgd k) a) (protBits prot)

variable {s s' : System} {k i addr len prot a : Nat} {mm : Mm.MmStruct} {vm : Mm.State} {pt : State} {v : Mm.Vma}

/-! ## Permissions -/

theorem SamePerm.trans {f g h : Nat} (h1 : SamePerm f g) (h2 : SamePerm g h) : SamePerm f h :=
  fun bit hb => (h1 bit hb).trans (h2 bit hb)

theorem SamePerm.symm {f g : Nat} (h : SamePerm f g) : SamePerm g f := fun bit hb => (h bit hb).symm

theorem samePerm_refl (f : Nat) : SamePerm f f := fun _ _ => rfl

/-- The `flags` an area gets. -/
def protectedFlags (flags prot : Nat) : Nat := flags &&& (0xFFFFFFFF ^^^ vmProt) ||| protBits prot

theorem samePerm_protectedFlags (flags prot : Nat) : SamePerm (protectedFlags flags prot) (protBits prot) := by
  have hmask : ∀ bit ∈ [Mm.vmRead, Mm.vmWrite, Mm.vmExec], (0xFFFFFFFF ^^^ vmProt) &&& bit = 0 := by decide
  intro bit hb
  unfold Mm.has protectedFlags
  rw [Nat.and_or_distrib_right, Nat.and_assoc, hmask bit hb, Nat.and_zero, Nat.zero_or]

theorem protectedFlags_twice (flags prot : Nat) :
    protectedFlags (protectedFlags flags prot) prot = protectedFlags flags prot := by
  unfold protectedFlags
  apply Nat.eq_of_testBit_eq
  intro j
  simp only [Nat.testBit_or, Nat.testBit_and]
  cases flags.testBit j <;> cases (0xFFFFFFFF ^^^ vmProt).testBit j <;> cases (protBits prot).testBit j <;> rfl

/-! ## The loop over the areas -/

/-- What a turn makes of its area. -/
def protectArea (addr len prot : Nat) (v : Mm.Vma) : Mm.Vma :=
  if Touched addr len v then { v with flags := protectedFlags v.flags prot } else v

theorem protectArea_range (addr len prot : Nat) (v : Mm.Vma) :
    (protectArea addr len prot v).start = v.start ∧ (protectArea addr len prot v).endAddr = v.endAddr := by
  unfold protectArea
  split <;> exact ⟨rfl, rfl⟩

theorem protectArea_twice (addr len prot : Nat) (v : Mm.Vma) :
    protectArea addr len prot (protectArea addr len prot v) = protectArea addr len prot v := by
  by_cases h : Touched addr len v
  · have hv : protectArea addr len prot v = { v with flags := protectedFlags v.flags prot } := if_pos h
    have h' : Touched addr len { v with flags := protectedFlags v.flags prot } := h
    rw [hv, protectArea, if_pos h', protectedFlags_twice]
  · have hv : protectArea addr len prot v = v := if_neg h
    rw [hv, hv]

theorem mprotectArea_swept (vm : Mm.State) (x : Nat) :
    Swept (fun vm i => vm.vmas i) (fun _ => protectArea addr len prot) (fun _ => True) (fun i => i = x) vm
      (mprotectArea addr (protectEnd addr len) prot vm x) := by
  unfold mprotectArea
  by_cases h : (vm.vmas x).endAddr ≤ addr ∨ protectEnd addr len ≤ (vm.vmas x).start
  · dsimp only
    rw [if_pos h]
    have hno : ¬Touched addr len (vm.vmas x) := not_not.2 h
    refine ⟨fun i _ hi => ?_, fun _ _ _ => rfl⟩
    rw [hi, protectArea, if_neg hno]
  · dsimp only
    rw [if_neg h]
    have hyes : Touched addr len (vm.vmas x) := h
    refine ⟨fun i _ hi => ?_, fun i _ hi => Function.update_of_ne hi _ _⟩
    rw [hi, setVma_self, protectArea, if_pos hyes]
    rfl

/-- **The areas after the call.** -/
theorem foldl_mprotectArea (vm : Mm.State) (mm : Mm.MmStruct) (l : List Nat) (addr len prot : Nat) :
    (l.foldl (mprotectArea addr (protectEnd addr len) prot) vm).nodes mm = vm.nodes mm ∧
      ∀ i, (l.foldl (mprotectArea addr (protectEnd addr len) prot) vm).vmas i =
        if i ∈ l then protectArea addr len prot (vm.vmas i) else vm.vmas i := by
  have hstep : ∀ x ∈ l, ∀ t : Mm.State, t.nodes mm = vm.nodes mm →
      (mprotectArea addr (protectEnd addr len) prot t x).nodes mm = vm.nodes mm ∧
        Swept (fun vm i => vm.vmas i) (fun _ => protectArea addr len prot) (fun _ => True) (fun i => i = x) t
          (mprotectArea addr (protectEnd addr len) prot t x) := by
    intro x _ t ht
    refine ⟨?_, mprotectArea_swept t x⟩
    rw [← ht]
    unfold mprotectArea
    dsimp only
    split <;> rfl
  obtain ⟨h1, h2⟩ := foldl_swept (fun _ => protectArea_twice addr len prot) l hstep vm rfl
  refine ⟨h1, fun i => ?_⟩
  split
  · rename_i hi
    exact h2.edited i trivial ⟨i, hi, rfl⟩
  · rename_i hi
    refine h2.kept i trivial ?_
    rintro ⟨x, hx, rfl⟩
    exact hi hx

/-! ## The loop over the pages -/

/-- What a turn makes of the entry of its page. -/
def remap (flags page e : Nat) : Nat := if Remaps page e then pteFor (frameOf e) flags else e

theorem frameOf_frameOf (e : Nat) : frameOf (frameOf e) = frameOf e := by
  refine frameOf_of_lt (dvd_frameOf e) ?_
  unfold frameOf
  omega

theorem remap_twice (flags page e : Nat) : remap flags page (remap flags page e) = remap flags page e := by
  by_cases h : Remaps page e
  · have hf : frameOf (pteFor (frameOf e) flags) = frameOf e := (frameOf_pteFor_mod _ _).trans (frameOf_frameOf e)
    have hv : remap flags page e = pteFor (frameOf e) flags := if_pos h
    have h' : Remaps page (pteFor (frameOf e) flags) := by
      refine ⟨h.1, present_pteFor _ _, ?_⟩
      rw [hf]
      exact h.2.2
    rw [hv, remap, if_pos h', hf]
  · have hv : remap flags page e = e := if_neg h
    rw [hv, hv]

/-- **One turn.** -/
theorem mprotectPage_swept {r pg flags : Nat} (h : Space pt r) (hc : readCr3 pt = r) (hpg : pg < userTop)
    (hd : pageSize ∣ pg) :
    Swept (fun t w => leaf t r w) (fun w => remap flags (alignDown w pageSize)) (fun w => w < userTop)
      (fun w => w / pageSize = pg / pageSize) pt (mprotectPage flags pt pg) := by
  have hphys : vmmUserVirtToPhys pt pg = if Present (leaf pt r pg) then frameOf (leaf pt r pg) else 0 := by
    have h0 : pg % 0x1000 = 0 := Nat.mod_eq_zero_of_dvd hd
    rw [vmmUserVirtToPhys, hc, h.virtToPhysIn_eq hpg, h0, Nat.add_zero]
  have hpage : ∀ w, w / pageSize = pg / pageSize → alignDown w pageSize = pg := by
    intro w hw
    obtain ⟨q, rfl⟩ := hd
    unfold alignDown
    unfold pageSize at *
    omega
  have hentry : ∀ w, w < userTop → w / pageSize = pg / pageSize → leaf pt r w = leaf pt r pg :=
    fun w hw hwp => leaf_congr _ _ hpg hw hwp
  unfold mprotectPage
  dsimp only
  rw [hphys]
  by_cases hre : Remaps pg (leaf pt r pg)
  · obtain ⟨hpg0, hp, hf⟩ := hre
    rw [if_pos hp, if_pos hf, vmmMapPage_user hpg, hc]
    obtain ⟨-, hmap⟩ := mapInPgd_spec (frameOf (leaf pt r pg)) flags h hpg hpg0
    rw [if_pos (obtainPt_isSome h hpg fun hc => not_present_zero (hc ▸ hp))] at hmap
    refine ⟨fun w hw hwp => ?_, fun w hw hwp => ?_⟩
    · rw [hmap w hw, if_pos hwp, hpage w hwp, hentry w hw hwp, remap, if_pos ⟨hpg0, hp, hf⟩]
    · rw [hmap w hw, if_neg hwp]
  · -- nothing is mapped anew
    have hsame : (if (if Present (leaf pt r pg) then frameOf (leaf pt r pg) else 0) ≠ 0 then
        vmmMapPage pt pg (if Present (leaf pt r pg) then frameOf (leaf pt r pg) else 0) flags else pt) = pt := by
      by_cases hp : Present (leaf pt r pg)
      · rw [if_pos hp]
        split
        · rename_i hf
          have hpg0 : pg = 0 := by
            by_contra hne
            exact hre ⟨hne, hp, hf⟩
          exact if_pos hpg0
        · rfl
      · rw [if_neg hp]
        rfl
    rw [hsame]
    refine ⟨fun w hw hwp => ?_, fun _ _ _ => rfl⟩
    rw [hpage w hwp, hentry w hw hwp, remap, if_neg hre]

/-- **The entries after the call**: those of the pages in the range are made anew. -/
theorem foldl_mprotectPage {r flags endAddr : Nat} (h : Space pt r) (hc : readCr3 pt = r) (hd : pageSize ∣ addr)
    (hde : pageSize ∣ endAddr) (hu : endAddr ≤ userTop ∨ endAddr ≤ addr) :
    ∀ w, w < userTop → leaf ((pagesOf addr endAddr).foldl (mprotectPage flags) pt) r w =
      if addr ≤ w ∧ w < endAddr then remap flags (alignDown w pageSize) (leaf pt r w) else leaf pt r w := by
  have hpages : ∀ pg ∈ pagesOf addr endAddr, pageSize ∣ pg ∧ pg < userTop := by
    intro pg hpg
    obtain ⟨h1, h2⟩ := mem_pagesOf hpg
    refine ⟨?_, by omega⟩
    obtain ⟨j, -, rfl⟩ := List.mem_map.1 hpg
    exact Nat.dvd_add hd ⟨j, Nat.mul_comm _ _⟩
  have hstep : ∀ pg ∈ pagesOf addr endAddr, ∀ t, (Space t r ∧ readCr3 t = r) →
      (Space (mprotectPage flags t pg) r ∧ readCr3 (mprotectPage flags t pg) = r) ∧
        Swept (fun t w => leaf t r w) (fun w => remap flags (alignDown w pageSize)) (fun w => w < userTop)
          (fun w => w / pageSize = pg / pageSize) t (mprotectPage flags t pg) := by
    rintro pg hpg t ⟨ht, htc⟩
    obtain ⟨hpd, hpu⟩ := hpages pg hpg
    have hw : Works t (mprotectPage flags t pg) r := mprotectPage_works ht htc hpu
    exact ⟨⟨hw.space ht, hw.readCr3 htc⟩, mprotectPage_swept ht htc hpu hpd⟩
  obtain ⟨-, hsw⟩ := foldl_swept (fun w => remap_twice flags (alignDown w pageSize)) _ hstep pt ⟨h, hc⟩
  intro w hw
  have hhit := exists_mem_pagesOf (x := w) hd hde
  split
  · rename_i hin
    exact hsw.edited w hw (hhit.2 hin)
  · rename_i hout
    exact hsw.kept w hw fun hin => hout (hhit.1 hin)

/-! ## The call -/

theorem has_protBits (prot : Nat) : Mm.has (protBits prot) Mm.vmRead = Mm.has prot Mm.protRead ∧
    Mm.has (protBits prot) Mm.vmWrite = Mm.has prot Mm.protWrite ∧
      Mm.has (protBits prot) Mm.vmExec = Mm.has prot Mm.protExec := by
  unfold protBits
  cases Mm.has prot Mm.protRead <;> cases Mm.has prot Mm.protWrite <;> cases Mm.has prot Mm.protExec <;> decide

theorem protFlags_spec (prot : Nat) : (protFlags prot).testBit 2 = true ∧
    (Writable (protFlags prot) ↔ Mm.has prot Mm.protWrite = true) ∧
      (¬NoExec (protFlags prot) ↔ Mm.has prot Mm.protExec = true) := by
  unfold protFlags
  cases Mm.has prot Mm.protWrite <;> cases Mm.has prot Mm.protExec <;> decide

/-- **An entry made anew grants what the call asks for, if that is to read**: it may always be read. -/
theorem conforms_protFlags {phys : Nat} (hlt : phys < 0x10000000000000) (prot : Nat) :
    Conforms (pteFor phys (protFlags prot)) (protBits prot) ↔ Mm.has prot Mm.protRead = true := by
  obtain ⟨h1, h2, h3⟩ := has_protBits prot
  obtain ⟨hu, hw, hx⟩ := protFlags_spec prot
  have hread : Readable (pteFor phys (protFlags prot)) := by
    refine ⟨present_pteFor _ _, ?_⟩
    have hbit : (pteFor phys (protFlags prot)).testBit 2 = true := by
      rw [testBit_pteFor _ _ 2 (by decide), hu]
      rfl
    rw [Nat.testBit_eq_decide_div_mod_eq, decide_eq_true_iff] at hbit
    exact hbit
  constructor
  · intro h
    rw [← h1]
    exact h.read.1 hread
  · intro h
    refine ⟨iff_of_true hread (h1.trans h), ?_, ?_⟩
    · rw [writable_pteFor, h2, hw]
    · rw [noExec_pteFor _ hlt, h3, hx]

/-- **What a call that answers 0 did.** -/
theorem sysMprotect_zero (hk : s.vm.mms k = some mm) (hcall : sysMprotect s k addr len prot = (0, s')) :
    pageSize ∣ addr ∧ ((len = 0 ∧ s' = s) ∨ (len ≠ 0 ∧
      s' = ⟨(s.vm.nodes mm).foldl (mprotectArea addr (protectEnd addr len) prot) s.vm,
        (pagesOf addr (protectEnd addr len)).foldl (mprotectPage (protFlags prot)) (onCpu s k), s.pgd⟩)) := by
  unfold sysMprotect at hcall
  by_cases hd : addr % pageSize ≠ 0
  · rw [if_pos hd] at hcall
    cases hcall
  rw [if_neg hd] at hcall
  refine ⟨Nat.dvd_of_mod_eq_zero (not_not.1 hd), ?_⟩
  by_cases hl : len = 0
  · rw [if_pos hl] at hcall
    cases hcall
    exact .inl ⟨hl, rfl⟩
  · rw [if_neg hl, hk] at hcall
    cases hcall
    exact .inr ⟨hl, rfl⟩

theorem dvd_protectEnd (hd : pageSize ∣ addr) : pageSize ∣ protectEnd addr len :=
  dvd_add64 ⟨0x10000000000000, rfl⟩ hd ⟨add64 len (Mm.pageSize - 1) / Mm.pageSize, Nat.mul_comm _ _⟩

/-- The range the loop goes over is not more than the range of the call. -/
theorem protectEnd_le (addr len : Nat) : protectEnd addr len ≤ rangeEnd addr len := by
  have h1 : (len + (pageSize - 1)) % word64 ≤ len + (pageSize - 1) := Nat.mod_le _ _
  have h2 : protectEnd addr len ≤ addr + Mm.pageAlign len := Nat.mod_le _ _
  refine Nat.le_trans h2 (Nat.add_le_add_left ?_ _)
  show (len + (pageSize - 1)) % word64 / pageSize * pageSize ≤ _
  exact Nat.mul_le_mul_right _ (Nat.div_le_div_right h1)

theorem lt_rangeEnd (hl : len ≠ 0) : addr < rangeEnd addr len := by
  unfold rangeEnd pageSize
  omega

/-- **When the call acts on its range only**: it does nothing, or stays in the user half and finds what it must. -/
def Protectable (s : System) (k : Nat) (mm : Mm.MmStruct) (addr len prot : Nat) : Prop :=
  len = 0 ∨ UserRange addr len ∧ ProtectOk s k mm addr len prot

/-- **The areas and the entries after a call that has something to do.** -/
structure Protected (s s' : System) (k : Nat) (mm : Mm.MmStruct) (addr len prot : Nat) : Prop where
  list : s'.vm.nodes mm = s.vm.nodes mm
  area : ∀ i, s'.vm.vmas i = if i ∈ s.vm.nodes mm then protectArea addr len prot (s.vm.vmas i) else s.vm.vmas i
  entry : ∀ w, w < userTop → leaf s'.pt (s'.pgd k) w =
    if addr ≤ w ∧ w < protectEnd addr len then remap (protFlags prot) (alignDown w pageSize) (leaf s.pt (s.pgd k) w)
    else leaf s.pt (s.pgd k) w

theorem sysMprotect_protected (h : Spaces s.pt (Root s)) (hk : s.vm.mms k = some mm) (hu : UserRange addr len) (hl : len ≠ 0)
    (hcall : sysMprotect s k addr len prot = (0, s')) : Protected s s' k mm addr len prot := by
  obtain ⟨hd, hcase⟩ := sysMprotect_zero hk hcall
  obtain ⟨-, rfl⟩ := hcase.resolve_left fun hc => hl hc.1
  obtain ⟨-, hsp, hc⟩ := onCpu_spec (k := k) h ⟨k, hk ▸ rfl, rfl⟩
  obtain ⟨hlist, hareas⟩ := foldl_mprotectArea s.vm mm (s.vm.nodes mm) addr len prot
  exact ⟨hlist, hareas, foldl_mprotectPage hsp hc hd (dvd_protectEnd hd) hu⟩

section Protected

variable (hp : Protected s s' k mm addr len prot)

include hp

theorem Protected.flags (hi : i ∈ s.vm.nodes mm) : (s'.vm.vmas i).flags =
    if Touched addr len (s.vm.vmas i) then protectedFlags (s.vm.vmas i).flags prot else (s.vm.vmas i).flags := by
  rw [hp.area i, if_pos hi, protectArea]
  split <;> rfl

theorem Protected.range (i : Nat) :
    (s'.vm.vmas i).start = (s.vm.vmas i).start ∧ (s'.vm.vmas i).endAddr = (s.vm.vmas i).endAddr := by
  rw [hp.area i]
  split
  · exact protectArea_range addr len prot _
  · exact ⟨rfl, rfl⟩

/-- Inside the range an entry is made anew, or kept. -/
theorem Protected.entry_inside (ha : a < userTop) (hin : InRange addr len a) : leaf s'.pt (s'.pgd k) a =
    if a < protectEnd addr len ∧ Remaps (alignDown a pageSize) (leaf s.pt (s.pgd k) a) then
      pteFor (frameOf (leaf s.pt (s.pgd k) a)) (protFlags prot)
    else leaf s.pt (s.pgd k) a := by
  rw [hp.entry a ha]
  by_cases hend : a < protectEnd addr len
  · rw [if_pos ⟨hin.1, hend⟩, remap]
    by_cases hre : Remaps (alignDown a pageSize) (leaf s.pt (s.pgd k) a)
    · rw [if_pos hre, if_pos ⟨hend, hre⟩]
    · rw [if_neg hre, if_neg fun hc => hre hc.2]
  · rw [if_neg fun hc => hend hc.2, if_neg fun hc => hend hc.1]

theorem Protected.rangeOnly (hok : ProtectOk s k mm addr len prot) : RangeOnly s s' k mm addr len prot := by
  have hnew := samePerm_protectedFlags
  refine ⟨hp.list, hp.range, fun i hi a hin hcov => ?_, fun i hi a ha hin hcov hpres => ?_, fun i hi a hout hcov => ?_,
    fun a ha hout => ?_⟩
  · rw [hp.flags hi]
    split
    · exact hnew _ _
    · rename_i hno
      exact (hok.reached i hi (Nat.lt_of_le_of_lt hcov.1 hin.2) (Nat.lt_of_le_of_lt hin.1 hcov.2)).resolve_left hno
  · have hlt : frameOf (leaf s.pt (s.pgd k) a) < 0x10000000000000 := by
      unfold frameOf
      omega
    rw [hp.entry_inside ha hin] at hpres ⊢
    split at hpres
    · rename_i hre
      have hread := hok.pages i hi a ha hin hcov hre.2.2.1
      rw [if_pos hre] at hread ⊢
      exact (conforms_protFlags hlt prot).2 hread
    · rename_i hre
      have hconf := hok.pages i hi a ha hin hcov hpres
      rw [if_neg hre] at hconf ⊢
      exact hconf
  · rw [hp.flags hi]
    split
    · rename_i htouch
      rcases hok.within i hi htouch with hwithin | hsame
      · exact absurd ⟨Nat.le_trans hwithin.1 hcov.1, Nat.lt_of_lt_of_le hcov.2 hwithin.2⟩ hout
      · exact (hnew _ _).trans hsame.symm
    · exact samePerm_refl _
  · rw [hp.entry a ha, if_neg]
    exact fun hc => hout ⟨hc.1, Nat.lt_of_lt_of_le hc.2 (protectEnd_le addr len)⟩

theorem Protected.protectOk (ht : Mm.Tidy (s.vm.areas mm)) (hl : len ≠ 0) (hr : RangeOnly s s' k mm addr len prot) :
    ProtectOk s k mm addr len prot := by
  have hnew := samePerm_protectedFlags
  have hlt : ∀ i ∈ s.vm.nodes mm, (s.vm.vmas i).start < (s.vm.vmas i).endAddr :=
    fun i hi => (ht.range _ (List.mem_map_of_mem hi)).lt
  refine ⟨fun i hi h1 h2 => ?_, fun i hi htouch => ?_, fun i hi a ha hin hcov hpres => ?_⟩
  · by_cases htouch : Touched addr len (s.vm.vmas i)
    · exact .inl htouch
    · -- the first address of the area in the range
      have hend : addr < rangeEnd addr len := lt_rangeEnd hl
      have hsame := hr.insideArea i hi (max addr (s.vm.vmas i).start) ⟨by omega, by omega⟩
        ⟨by omega, Nat.max_lt.2 ⟨h2, hlt i hi⟩⟩
      rw [hp.flags hi, if_neg htouch] at hsame
      exact .inr hsame
  · have hback : ∀ a, ¬InRange addr len a → Covers (s.vm.vmas i) a → SamePerm (s.vm.vmas i).flags (protBits prot) := by
      intro a hout hcov
      have hsame := hr.outsideArea i hi a hout hcov
      rw [hp.flags hi, if_pos htouch] at hsame
      exact hsame.symm.trans (hnew _ _)
    by_cases hlow : addr ≤ (s.vm.vmas i).start
    · by_cases hhigh : (s.vm.vmas i).endAddr ≤ rangeEnd addr len
      · exact .inl ⟨hlow, hhigh⟩
      · refine .inr (hback (max (s.vm.vmas i).start (rangeEnd addr len)) (fun hc => ?_) ⟨Nat.le_max_left _ _, ?_⟩)
        · exact absurd hc.2 (Nat.not_lt.2 (Nat.le_max_right _ _))
        · exact Nat.max_lt.2 ⟨hlt i hi, Nat.not_le.1 hhigh⟩
    · exact .inr (hback (s.vm.vmas i).start (fun hc => hlow hc.1) ⟨Nat.le_refl _, hlt i hi⟩)
  · have hphys : frameOf (leaf s.pt (s.pgd k) a) < 0x10000000000000 := by
      unfold frameOf
      omega
    have hconf := hr.insideEntry i hi a ha hin hcov
    rw [hp.entry_inside ha hin] at hconf
    split
    · rename_i hre
      rw [if_pos hre] at hconf
      exact (conforms_protFlags hphys prot).1 (hconf (present_pteFor _ _))
    · rename_i hre
      rw [if_neg hre] at hconf
      exact hconf hpres

end Protected

/-- A call with nothing to do. -/
theorem rangeOnly_zero (s : System) (k : Nat) (mm : Mm.MmStruct) (addr prot : Nat) : RangeOnly s s k mm addr 0 prot := by
  have hnone : ∀ a, ¬InRange addr 0 a := by
    rintro a ⟨h1, h2⟩
    have h0 : rangeEnd addr 0 = addr := rfl
    omega
  exact ⟨rfl, fun _ => ⟨rfl, rfl⟩, fun _ _ a hin _ => absurd hin (hnone a), fun _ _ a _ hin _ _ => absurd hin (hnone a),
    fun _ _ _ _ _ => samePerm_refl _, fun _ _ _ => rfl⟩

/-- **`mprotect` acts on its range only where it is `Protectable`**, and, when the range is in the user half or wraps, only
there. -/
theorem mprotect_iff (s s' : System) (k addr len prot : Nat) (mm : Mm.MmStruct) (h : Spaces s.pt (Root s))
    (hk : s.vm.mms k = some mm) (ht : Mm.Tidy (s.vm.areas mm)) (hcall : sysMprotect s k addr len prot = (0, s')) :
    (Protectable s k mm addr len prot → RangeOnly s s' k mm addr len prot) ∧
      (UserRange addr len → RangeOnly s s' k mm addr len prot → Protectable s k mm addr len prot) := by
  constructor
  · intro hok
    by_cases hl : len = 0
    · subst hl
      obtain ⟨-, ⟨-, rfl⟩ | ⟨hc, -⟩⟩ := sysMprotect_zero hk hcall
      · exact rangeOnly_zero _ k mm addr prot
      · exact absurd rfl hc
    · obtain ⟨hu, hok⟩ := hok.resolve_left hl
      exact (sysMprotect_protected h hk hu hl hcall).rangeOnly hok
  · intro hu hr
    by_cases hl : len = 0
    · exact .inl hl
    · exact .inr ⟨hu, (sysMprotect_protected h hk hu hl hcall).protectOk ht hl hr⟩

/-- A process with an area of two pages to read and write, the first of them mapped. -/
def twoPages : System :=
  ⟨oneArea ⟨0x400000, 0x402000, Mm.vmRead ||| Mm.vmWrite, Mm.vmRead ||| Mm.vmWrite, 0⟩, mappedOnce, fun _ => 0x100000⟩

theorem twoPages_tidy : Mm.Tidy (twoPages.vm.areas oneMm) :=
  oneArea_tidy ⟨by decide, ⟨0x400, rfl⟩, ⟨0x402, rfl⟩, by decide⟩

theorem mappedOnce_works : Works emptyRoot mappedOnce 0x100000 :=
  vmmMapPageInPgd_works emptyRoot_space (by decide : 0x400000 < 0x800000000000)

theorem twoPages_spaces : Spaces twoPages.pt (Root twoPages) := by
  refine (emptySystem_spaces twoPages.vm).works (r := 0x100000) ⟨0, rfl, rfl⟩ mappedOnce_works

theorem leaf_mappedOnce {w : Nat} (hw : w < userTop) : leaf mappedOnce 0x100000 w =
    if w / pageSize = 0x400000 / pageSize then pteFor 0x200000 pteUser else 0 := by
  obtain ⟨-, hmap⟩ := mapInPgd_spec (v := 0x400000) 0x200000 pteUser emptyRoot_space
    (by decide : 0x400000 < 0x800000000000) (by decide)
  have hfound : (obtainPt emptyRoot 0x100000 0x400000).1.isSome = true := by decide +kernel
  rw [if_pos hfound] at hmap
  have hzero : leaf emptyRoot 0x100000 w = 0 := Layout.entryAt_empty (fun _ _ => rfl) (entry_leaf hw)
  exact (hmap w hw).trans (by rw [hzero])

/-- Both pages, to be read only. -/
theorem mprotect_iff_twoPages : ∃ s', sysMprotect twoPages 0 0x400000 0x2000 Mm.protRead = (0, s') ∧
    RangeOnly twoPages s' 0 oneMm 0x400000 0x2000 Mm.protRead := by
  have htouch : Touched 0x400000 0x2000 ⟨0x400000, 0x402000, Mm.vmRead ||| Mm.vmWrite, Mm.vmRead ||| Mm.vmWrite, 0⟩ := by
    decide
  have hend : rangeEnd 0x400000 0x2000 = 0x402000 := rfl
  have hend' : protectEnd 0x400000 0x2000 = 0x402000 := rfl
  refine ⟨_, rfl, (mprotect_iff twoPages _ 0 0x400000 0x2000 Mm.protRead oneMm twoPages_spaces rfl twoPages_tidy rfl).1
    (.inr ⟨by decide, fun i hi _ _ => .inl htouch, fun i hi _ => .inl ⟨Nat.le_refl _, Nat.le_refl _⟩,
      fun i hi a ha hin hcov hpres => ?_⟩)⟩
  have hl : leaf twoPages.pt (twoPages.pgd 0) a = if a / pageSize = 0x400000 / pageSize then pteFor 0x200000 pteUser else 0 :=
    leaf_mappedOnce ha
  have hpage : a / pageSize = 0x400000 / pageSize := by
    by_contra hne
    rw [hl, if_neg hne] at hpres
    exact not_present_zero hpres
  rw [if_pos hpage] at hl
  have hbounds : 0x400000 ≤ a ∧ a < 0x402000 := ⟨hin.1, hend ▸ hin.2⟩
  have hre : Remaps (alignDown a pageSize) (leaf twoPages.pt (twoPages.pgd 0) a) := by
    rw [hl]
    exact ⟨alignDown_ne_zero (by omega), by decide +kernel, by decide +kernel⟩
  rw [if_pos ⟨hend' ▸ hbounds.2, hre⟩]
  decide

/-- The first page, to be read only: so is the second one's area. -/
theorem not_rangeOnly_half : ∃ s', sysMprotect twoPages 0 0x400000 0x1000 Mm.protRead = (0, s') ∧
    ¬RangeOnly twoPages s' 0 oneMm 0x400000 0x1000 Mm.protRead := by
  refine ⟨_, rfl, fun h => ?_⟩
  have hsame := h.outsideArea 0 (by decide) 0x401000 (by decide) (by decide) Mm.vmWrite (by decide)
  revert hsame
  decide +kernel

end AddrSpace
end Pico
