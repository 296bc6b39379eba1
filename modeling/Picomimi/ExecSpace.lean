import Picomimi.Exec
/-!
# ExecSpace — the address space while an image is loaded

`Loading s₀ s r`: since `s₀` a root `r` has been made, and everything written lies in pages that were free then.  The pages
mapped below `r` are none of its tables, and no page is mapped twice.  Mapping a fresh page keeps that (`Loading.mapPage`),
and so does a store to a mapped page (`Loading.store`).
-/
namespace Pico
namespace Exec

open Lib Paging AddrSpace

/-- The tables of `r`, and what has been written since `s₀`. -/
structure Fresh (s₀ s : State) (r : Nat) : Prop where
  space : Space s r
  cr3 : readCr3 s = r
  still : ∀ t, s.Free t → s₀.Free t
  root : s₀.Free r
  owned : ∀ a, userTree.Owned s.mem r a → s₀.Free (alignDown a pageSize)
  frame : ∀ a, ¬s₀.Free (alignDown a pageSize) → s.mem a = s₀.mem a
  upper : ∀ i, 256 ≤ i → i < 512 → s.mem (slot r i) = s₀.mem (slot s₀.kernelPml4 i)
  kernelPml4 : s.kernelPml4 = s₀.kernelPml4
  base : s.bitmapBase = s₀.bitmapBase

/-- A page for the program: taken, and not a table. -/
structure DataPage (s₀ s : State) (r f : Nat) : Prop where
  free : s₀.Free f
  used : ¬s.Free f
  ne : f ≠ r
  owned : ∀ a, alignDown a pageSize = f → ¬userTree.Owned s.mem r a

/-- **The state of a load.** -/
structure Loading (s₀ s : State) (r : Nat) : Prop extends Fresh s₀ s r where
  data : ∀ w, w < userTop → Present (leaf s r w) → DataPage s₀ s r (frameOf (leaf s r w))
  inj : ∀ w v, w < userTop → v < userTop → Present (leaf s r w) → Present (leaf s r v) →
    frameOf (leaf s r w) = frameOf (leaf s r v) → w / pageSize = v / pageSize

variable {s₀ s s' s₁ : State} {r f n u v w phys flags : Nat}

/-! ## Work on the tables -/

/-- The words of the kernel's half are none of the tree. -/
theorem Space.not_owned_upper (h : Space s r) {i : Nat} (h1 : 256 ≤ i) (h2 : i < 512) : ¬userTree.Owned s.mem r (slot r i) := by
  rintro ⟨j, p, t, he, ht, hs⟩
  have hj : j < 512 := he.2.lt
  have hrt : r = t := by
    rw [← alignDown_slot h.tree.isRoot h2, hs]
    exact alignDown_slot (h.tree.isTable ht) hj
  subst hrt
  have hp : p = [] := h.tree.inj p [] r he.1 userTree.path_nil ht rfl
  subst hp
  have hij : i = j := userTree.slot_inj r i j h.tree.isRoot h2 hj hs
  have hlt : j < 256 := he.2.1
  omega

theorem Space.root_used (h : Space s r) : ¬s.Free r := h.tree.used [] r userTree.path_nil rfl

theorem Fresh.works (h : Fresh s₀ s r) (hw : Works s s' r) : Fresh s₀ s' r := by
  refine ⟨hw.space h.space, hw.readCr3 h.cr3, fun t ht => h.still t (hw.grows.still t ht), h.root, fun a ha => ?_,
    fun a ha => ?_, fun i h1 h2 => ?_, hw.kernelPml4.trans h.kernelPml4, hw.base.trans h.base⟩
  · rcases hw.grows.owned a ha with h1 | h1
    · exact h.owned a h1
    · exact h.still _ h1
  · rw [hw.grows.frame a (fun hc => ha (h.owned a hc)) fun hc => ha (h.still _ hc)]
    exact h.frame a ha
  · rw [hw.grows.frame _ (Space.not_owned_upper h.space h1 h2), h.upper i h1 h2]
    intro hc
    refine Space.root_used h.space ?_
    rw [← alignDown_slot h.space.tree.isRoot h2]
    exact hc

theorem DataPage.works (h : DataPage s₀ s r f) (hw : Works s s' r) : DataPage s₀ s' r f := by
  refine ⟨h.free, fun hc => h.used (hw.grows.still _ hc), h.ne, fun a ha hc => ?_⟩
  rcases hw.grows.owned a hc with h1 | h1
  · exact h.owned a ha h1
  · have hf : s.Free (alignDown a pageSize) := h1
    rw [ha] at hf
    exact h.used hf

/-- A page just taken is a page for the program. -/
theorem Fresh.dataPage (h : Fresh s₀ s r) (hn : Taken s s₁ n) : DataPage s₀ s₁ r n := by
  refine ⟨h.still n hn.free, fun hc => (hn.still n hc).2 rfl, ?_, fun a ha hc => ?_⟩
  · rintro rfl
    exact Space.root_used h.space hn.free
  · rw [hn.mem] at hc
    refine h.space.tree.not_free hc ?_
    show s.Free (alignDown a pageSize)
    rw [ha]
    exact hn.free

theorem Loading.same (h : Loading s₀ s r) (hw : Works s s' r) (hl : SameLeaves s s' r) : Loading s₀ s' r := by
  refine ⟨h.toFresh.works hw, fun w hw' hp => ?_, fun w v hw' hv => ?_⟩
  · rw [hl w hw'] at hp ⊢
    exact (h.data w hw' hp).works hw
  · rw [hl w hw', hl v hv]
    exact h.inj w v hw' hv

/-- **A fresh page is mapped.** -/
theorem Loading.set {e : Nat} (h : Loading s₀ s r) (hw : Works s s' r) (hd : DataPage s₀ s' r n) (hn : s.Free n)
    (hl : LeafSet s s' r u e) (he : frameOf e = n) : Loading s₀ s' r := by
  -- no page that is mapped was free
  have hne : ∀ w, w < userTop → Present (leaf s r w) → frameOf (leaf s r w) ≠ n := by
    intro w hw' hp hc
    refine (h.data w hw' hp).used ?_
    rw [hc]
    exact hn
  refine ⟨h.toFresh.works hw, fun w hw' hp => ?_, fun w v hw' hv hpw hpv hf => ?_⟩
  · rw [hl w hw'] at hp ⊢
    split at hp
    · rename_i hpage
      rw [if_pos hpage, he]
      exact hd
    · rename_i hpage
      rw [if_neg hpage]
      exact (h.data w hw' hp).works hw
  · rw [hl w hw'] at hpw hf
    rw [hl v hv] at hpv hf
    by_cases h1 : w / pageSize = u / pageSize
    · by_cases h2 : v / pageSize = u / pageSize
      · exact h1.trans h2.symm
      · rw [if_pos h1, if_neg h2, he] at hf
        rw [if_neg h2] at hpv
        exact absurd hf.symm (hne v hv hpv)
    · by_cases h2 : v / pageSize = u / pageSize
      · rw [if_neg h1, if_pos h2, he] at hf
        rw [if_neg h1] at hpw
        exact absurd hf (hne w hw' hpw)
      · rw [if_neg h1] at hpw hf
        rw [if_neg h2] at hpv hf
        exact h.inj w v hw' hv hpw hpv hf

/-! ## Stores to a page of the program -/

/-- **A store to a page of the program** changes nothing else. -/
theorem Loading.store {m : Nat → Nat} (h : Loading s₀ s r) (hd : DataPage s₀ s r f)
    (hm : ∀ a, alignDown a pageSize ≠ f → m a = s.mem a) :
    Loading s₀ { s with mem := m } r ∧ SameLeaves s { s with mem := m } r := by
  have hown : ∀ a, userTree.Owned s.mem r a → m a = s.mem a := fun a ha => hm a fun hc => hd.owned a hc ha
  have howned : ∀ a, userTree.Owned m r a ↔ userTree.Owned s.mem r a := fun a => Layout.owned_congr hown
  have hl : SameLeaves s { s with mem := m } r := fun w hw => Layout.entryAt_congr hown (entry_leaf hw)
  have hpage : ∀ f', DataPage s₀ s r f' → DataPage s₀ { s with mem := m } r f' :=
    fun f' h' => ⟨h'.free, h'.used, h'.ne, fun a ha hc => h'.owned a ha ((howned a).1 hc)⟩
  have hspace : Space { s with mem := m } r := by
    refine ⟨h.space.tree.congr hown fun _ ht => ht, fun i p hp => ?_, h.space.base, h.space.top⟩
    rw [Layout.entryAt_congr hown hp.entry]
    exact h.space.plain i p hp
  refine ⟨⟨⟨hspace, h.cr3, h.still, h.root, fun a ha => h.owned a ((howned a).1 ha), fun a ha => ?_, fun i h1 h2 => ?_,
    h.kernelPml4, h.base⟩, fun w hw hp => ?_, fun w v hw hv => ?_⟩, hl⟩
  · exact (hm a fun hc => ha (hc ▸ hd.free)).trans (h.frame a ha)
  · rw [← h.upper i h1 h2]
    apply hm
    rw [alignDown_slot h.space.tree.isRoot h2]
    exact hd.ne.symm
  · rw [hl w hw] at hp ⊢
    exact hpage _ (h.data w hw hp)
  · rw [hl w hw, hl v hv]
    exact h.inj w v hw hv

/-! ## A page for the program -/

/-- `pmm_alloc_page` gives up when no page is free. -/
theorem pmmAllocPage_zero (hb : 0 < s.bitmapBase) (h : pmmAllocPage s = (0, s')) : ∀ t, ¬s'.Free t := by
  rcases pmmAllocPage_taken h with ⟨hno, -, rfl⟩ | hn
  · exact hno
  · obtain ⟨i, -, -, h0⟩ := hn.free
    omega

theorem pmmAllocPage_base (s : State) : (pmmAllocPage s).2.bitmapBase = s.bitmapBase := by
  unfold pmmAllocPage
  split <;> rfl

theorem getOrCreateTable_base (s : State) (t i : Nat) : (getOrCreateTable s t i).2.bitmapBase = s.bitmapBase := by
  have ha := pmmAllocPage_base s
  unfold getOrCreateTable
  split
  · rcases h : pmmAllocPage s with ⟨_ | n, s₁⟩
    · rw [h] at ha
      exact ha
    · rw [h] at ha
      exact ha
  · rfl

theorem getOrCreateTable_none {t i : Nat} (hb : 0 < s.bitmapBase) (h : getOrCreateTable s t i = (none, s')) :
    ∀ t, ¬s'.Free t := by
  unfold getOrCreateTable at h
  split at h
  · rcases ha : pmmAllocPage s with ⟨_ | n, s₁⟩
    · rw [ha] at h
      cases h
      exact pmmAllocPage_zero hb ha
    · rw [ha] at h
      cases h
  · cases h

/-- A table is missing only when no page is free. -/
theorem obtainPt_none (hb : 0 < s.bitmapBase) (h : obtainPt s r v = (none, s')) : ∀ t, ¬s'.Free t := by
  unfold obtainPt at h
  have b4 := getOrCreateTable_base s r (pml4Idx v)
  rcases h4 : getOrCreateTable s r (pml4Idx v) with ⟨_ | pdpt, s₄⟩
  · rw [h4] at h
    cases h
    exact getOrCreateTable_none hb h4
  · rw [h4] at h b4
    dsimp only at h
    have b3 := getOrCreateTable_base s₄ pdpt (pdptIdx v)
    rcases h3 : getOrCreateTable s₄ pdpt (pdptIdx v) with ⟨_ | pd, s₃⟩
    · rw [h3] at h
      cases h
      exact getOrCreateTable_none (b4.symm ▸ hb) h3
    · rw [h3] at h b3
      exact getOrCreateTable_none (b3.symm ▸ b4.symm ▸ hb) h

/-! ## Addresses that are not canonical -/

/-- The walkers look at 48 bits of an address. -/
structure SameIdx (u v : Nat) : Prop where
  pml4 : pml4Idx u = pml4Idx v
  pdpt : pdptIdx u = pdptIdx v
  pd : pdIdx u = pdIdx v
  pt : ptIdx u = ptIdx v

theorem sameIdx_mod (v : Nat) : SameIdx (v % 0x1000000000000) v := by
  constructor <;> simp only [pml4Idx, pdptIdx, pdIdx, ptIdx] <;> omega

theorem mod_lt_userTop (h : pml4Idx v < 256) : v % 0x1000000000000 < userTop := by
  unfold pml4Idx at h
  unfold userTop
  omega

theorem mod_of_user (h : v < userTop) : v % 0x1000000000000 = v := Nat.mod_eq_of_lt (Nat.lt_trans h (by decide))

theorem obtainPt_congr (h : SameIdx u v) (s : State) (r : Nat) : obtainPt s r u = obtainPt s r v := by
  unfold obtainPt
  rw [h.pml4, h.pdpt, h.pd]

/-- **A page mapped at any address whose top entry is a user's** is mapped in the user half. -/
theorem mapInPgd_canon (h4 : pml4Idx v < 256) (h0 : v ≠ 0) : ∃ u, u ≠ 0 ∧ u < userTop ∧
    u / pageSize = v % 0x1000000000000 / pageSize ∧
    ∀ s r phys flags, vmmMapPageInPgd s r v phys flags = vmmMapPageInPgd s r u phys flags := by
  have hcongr : ∀ u, u ≠ 0 → SameIdx u v →
      ∀ s r phys flags, vmmMapPageInPgd s r v phys flags = vmmMapPageInPgd s r u phys flags := by
    intro u hu hi s r phys flags
    unfold vmmMapPageInPgd
    rw [if_neg h0, if_neg hu, obtainPt_congr hi, hi.pt]
  by_cases hz : v % 0x1000000000000 = 0
  · -- page 0 under another name
    have hi : SameIdx 1 v := by
      constructor <;> simp only [pml4Idx, pdptIdx, pdIdx, ptIdx] <;> omega
    exact ⟨1, by decide, by decide, by rw [hz]; rfl, hcongr 1 (by decide) hi⟩
  · exact ⟨_, hz, mod_lt_userTop h4, rfl, hcongr _ hz (sameIdx_mod v)⟩

theorem virtToPhysIn_mod (mem : Nat → Nat) (r v : Nat) : virtToPhysIn mem r (v % 0x1000000000000) = virtToPhysIn mem r v := by
  obtain ⟨h4, h3, h2, h1⟩ := sameIdx_mod v
  have m1 : v % 0x1000000000000 % 0x1000 = v % 0x1000 := by omega
  have m2 : v % 0x1000000000000 % 0x200000 = v % 0x200000 := by omega
  have m3 : v % 0x1000000000000 % 0x40000000 = v % 0x40000000 := by omega
  have s4 : pml4Slot r (v % 0x1000000000000) = pml4Slot r v := by rw [pml4Slot, pml4Slot, h4]
  have s3 : pdptSlot mem r (v % 0x1000000000000) = pdptSlot mem r v := by rw [pdptSlot, pdptSlot, s4, h3]
  have s2 : pdSlot mem r (v % 0x1000000000000) = pdSlot mem r v := by rw [pdSlot, pdSlot, s3, h2]
  have s1 : ptSlot mem r (v % 0x1000000000000) = ptSlot mem r v := by rw [ptSlot, ptSlot, s2, h1]
  unfold virtToPhysIn
  dsimp only
  rw [s4, s3, s2, s1, m1, m2, m3]

/-! ## The steps of a load -/

/-- **A fresh page is mapped where no kernel entry leads.**  While a page is still free, its tables were found. -/
theorem Loading.mapPage (flags : Nat) (h : Loading s₀ s r) (ha : pmmAllocPage s = (n, s₁)) (hn0 : n ≠ 0) (hnx : v < pteNx)
    (h4 : pml4Idx v < 256) : Works s (vmmMapPage s₁ v n flags) r ∧ Loading s₀ (vmmMapPage s₁ v n flags) r ∧
      (v ≠ 0 → v < userTop → 0 < s.bitmapBase → (∃ t, (vmmMapPage s₁ v n flags).Free t) →
        LeafSet s (vmmMapPage s₁ v n flags) r v (pteFor n flags)) := by
  have hn : Taken s s₁ n := (pmmAllocPage_spec ha).resolve_left fun hc => hn0 hc.1
  obtain ⟨hw1, hl1⟩ := h.space.filled hn.filled
  have h1 : Loading s₀ s₁ r := h.same hw1 hl1
  have hs1 := h1.space
  rw [vmmMapPage_eq, if_neg (Nat.not_le.2 hnx), h1.cr3]
  by_cases hv0 : v = 0
  · have hskip : vmmMapPageInPgd s₁ r v n flags = s₁ := if_pos hv0
    rw [hskip]
    exact ⟨hw1, h1, fun hc => absurd hv0 hc⟩
  obtain ⟨u, hu0, hu, hpage, hcanon⟩ := mapInPgd_canon h4 hv0
  rw [hcanon]
  obtain ⟨hw2, hmap⟩ := mapInPgd_spec n flags hs1 hu hu0
  have hw := hw1.trans hw2
  by_cases ho : (obtainPt s₁ r u).1.isSome = true
  · rw [if_pos ho] at hmap
    have hset : LeafSet s (vmmMapPageInPgd s₁ r u n flags) r u (pteFor n flags) := by
      intro w hw'
      rw [hmap w hw', hl1 w hw']
    have hfr := frameOf_pteFor flags (h.space.dvd_of_free hn.free) (h.space.lt_of_free hn.free)
    refine ⟨hw, h.set hw ((h.dataPage hn).works hw2) hn.free hset hfr, fun _ hv _ _ w hw' => ?_⟩
    rw [hset w hw', hpage, mod_of_user hv]
  · rw [if_neg ho] at hmap
    refine ⟨hw, h1.same hw2 hmap.1, fun _ _ hb hfree => ?_⟩
    obtain ⟨t, ht⟩ := hfree
    have hskip : vmmMapPageInPgd s₁ r u n flags = (obtainPt s₁ r u).2 := by
      unfold vmmMapPageInPgd
      rw [if_neg hu0]
      rcases hp : obtainPt s₁ r u with ⟨_ | pt, s₂⟩
      · rfl
      · rw [hp] at ho
        exact absurd rfl ho
    rw [hskip] at ht
    refine absurd ht (obtainPt_none (hn.base.symm ▸ hb) (r := r) (v := u) ?_ t)
    exact Prod.ext (Option.not_isSome_iff_eq_none.1 ho) rfl

/-- `pmm_alloc_page` has no page, or gives page 0, which is thrown away. -/
theorem Loading.allocZero (h : Loading s₀ s r) (ha : pmmAllocPage s = (0, s₁)) : Works s s₁ r ∧ Loading s₀ s₁ r := by
  rcases pmmAllocPage_spec ha with ⟨-, rfl⟩ | hn
  · exact ⟨h.space.refl, h⟩
  · obtain ⟨hw1, hl1⟩ := h.space.filled hn.filled
    exact ⟨hw1, h.same hw1 hl1⟩

/-- What `vmm_user_virt_to_phys` finds. -/
theorem Loading.lookup (h : Loading s₀ s r) (h4 : pml4Idx v < 256) : vmmUserVirtToPhys s v =
    if Present (leaf s r (v % 0x1000000000000)) then frameOf (leaf s r (v % 0x1000000000000)) + v % pageSize else 0 := by
  have hm : v % 0x1000000000000 % 0x1000 = v % pageSize := by
    unfold pageSize
    omega
  unfold vmmUserVirtToPhys
  rw [h.cr3, ← virtToPhysIn_mod, h.space.virtToPhysIn_eq (mod_lt_userTop h4), hm]

/-- A page that is found is one of the program's. -/
theorem Loading.target (h : Loading s₀ s r) (h4 : pml4Idx v < 256) (hv : pageSize ∣ v) (hp : vmmUserVirtToPhys s v ≠ 0) :
    Present (leaf s r (v % 0x1000000000000)) ∧ vmmUserVirtToPhys s v = frameOf (leaf s r (v % 0x1000000000000)) ∧
      DataPage s₀ s r (vmmUserVirtToPhys s v) := by
  rw [h.lookup h4] at hp ⊢
  split at hp
  · rename_i hpr
    rw [if_pos hpr, Nat.mod_eq_zero_of_dvd hv, Nat.add_zero]
    exact ⟨hpr, rfl, h.data _ (mod_lt_userTop h4) hpr⟩
  · exact absurd rfl hp

theorem Loading.dvd_of_data (h : Loading s₀ s r) (hd : DataPage s₀ s r f) : pageSize ∣ f := by
  obtain ⟨i, -, -, rfl⟩ := hd.free
  rw [← h.base]
  exact Nat.dvd_add h.space.base ⟨i, Nat.mul_comm _ _⟩

theorem Loading.zeroPage (h : Loading s₀ s r) (h4 : pml4Idx v < 256) (hv : pageSize ∣ v) :
    Loading s₀ (zeroPage s v) r ∧ SameLeaves s (zeroPage s v) r := by
  unfold Exec.zeroPage
  dsimp only
  split
  · rename_i hp
    obtain ⟨-, -, hd⟩ := h.target h4 hv hp
    refine h.store hd fun a ha => if_neg fun hc => ha ?_
    exact alignDown_eq_of_dvd (h.dvd_of_data hd) hc.1 hc.2
  · exact ⟨h, fun _ _ => rfl⟩

theorem Loading.copyTo {off : Nat} (data : List UInt8) (h : Loading s₀ s r) (h4 : pml4Idx v < 256) (hv : pageSize ∣ v)
    (hp : vmmUserVirtToPhys s v ≠ 0) (hoff : off + data.length ≤ pageSize) :
    Loading s₀ (copyTo s (vmmUserVirtToPhys s v + off) data) r ∧
      SameLeaves s (copyTo s (vmmUserVirtToPhys s v + off) data) r := by
  obtain ⟨-, -, hd⟩ := h.target h4 hv hp
  obtain ⟨q, hq⟩ := h.dvd_of_data hd
  refine h.store hd fun a ha => storeBytes_of_apart fun i hi hc => ha ?_
  rw [← hc]
  unfold alignDown pageSize at *
  omega

/-! ## `vmm_alloc_pages` and the three loops, without their matches -/

theorem vmmAllocPages_snd (s : State) (virt size prot : Nat) : (vmmAllocPages s virt size prot).2 =
    (vmmAllocLoop virt (vmmFlags prot) ((size + (pageSize - 1)) / pageSize) 0 s).2 := by
  unfold vmmAllocPages
  rcases vmmAllocLoop virt (vmmFlags prot) ((size + (pageSize - 1)) / pageSize) 0 s with ⟨_ | _, s₁⟩ <;> rfl

theorem vmmAllocPages_ne_zero {virt size prot : Nat} (h : (vmmAllocPages s virt size prot).1 ≠ 0) :
    (vmmAllocLoop virt (vmmFlags prot) ((size + (pageSize - 1)) / pageSize) 0 s).1 = true ∧ virt ≠ 0 := by
  unfold vmmAllocPages at h
  rcases hl : vmmAllocLoop virt (vmmFlags prot) ((size + (pageSize - 1)) / pageSize) 0 s with ⟨_ | _, s₁⟩ <;> rw [hl] at h
  · exact absurd rfl h
  · exact ⟨rfl, h⟩

theorem loadSegment_eq (file : List UInt8) (s : State) (g : Segment) : loadSegment file s g =
    if (vmmAllocPages s g.mapStart g.mapSize g.prot).1 = 0 then (-enomem, (vmmAllocPages s g.mapStart g.mapSize g.prot).2)
    else
      copyFile file g.filesz
        ((pagesOf g.mapStart g.mapEnd).foldl zeroPage (vmmAllocPages s g.mapStart g.mapSize g.prot).2) g.vaddr g.filesz
        g.offset := by
  unfold loadSegment
  rcases vmmAllocPages s g.mapStart g.mapSize g.prot with ⟨_ | m, s₁⟩
  · rfl
  · exact (if_neg (Nat.succ_ne_zero m)).symm

end Exec
end Pico
