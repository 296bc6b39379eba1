import Picomimi.ExecKernel
/-!
# ExecView — what the program finds in its memory

The user half as the program sees it is a byte, or none, for every address (`userByte`).  To load a segment is to put the
file's bytes where they go and zeros in the rest of the segment's pages, whatever was there (`placeAt`): the pages are mapped
again, so that bytes of an earlier segment in them are gone.
-/
namespace Pico
namespace Exec

open Lib Paging AddrSpace

/-- The byte at a user's address, in the address space CR3 has. -/
def userByte (s : State) (x : Nat) : Option Nat :=
  match vmmUserVirtToPhys s x with
  | 0 => none
  | phys => some (byteAt s.mem phys)

/-! ## One step -/

section Steps

variable {s₀ s s' s₁ : State} {r f n v x flags : Nat}

theorem userByte_eq (h : Loading s₀ s r) (hb : 0 < s₀.bitmapBase) (hx : x < userTop) : userByte s x =
    if Present (leaf s r x) then some (byteAt s.mem (frameOf (leaf s r x) + x % pageSize)) else none := by
  have hl := h.lookup (pml4Idx_of_user hx)
  rw [mod_of_user hx] at hl
  unfold userByte
  rw [hl]
  by_cases hp : Present (leaf s r x)
  · rw [if_pos hp, if_pos hp]
    have hpos : frameOf (leaf s r x) + x % pageSize ≠ 0 := by
      obtain ⟨i, -, -, hi⟩ := (h.data x hx hp).free
      omega
    obtain ⟨m, hm⟩ := Nat.exists_eq_succ_of_ne_zero hpos
    rw [hm]
    rfl
  · rw [if_neg hp, if_neg hp]
    rfl

/-- The word a byte of a page is in is a word of the page. -/
theorem alignDown_word (hd : pageSize ∣ f) {i : Nat} (hi : i < pageSize) : alignDown (alignDown (f + i) 8) pageSize = f := by
  obtain ⟨q, rfl⟩ := hd
  unfold alignDown pageSize at *
  omega

theorem mod_lt_pageSize (x : Nat) : x % pageSize < pageSize := Nat.mod_lt _ (by decide)

/-- Work on the tables does not show on a page that stays mapped. -/
theorem userByte_works (h : Loading s₀ s r) (h' : Loading s₀ s' r) (hb : 0 < s₀.bitmapBase) (hw : Works s s' r)
    (hx : x < userTop) (hl : leaf s' r x = leaf s r x) : userByte s' x = userByte s x := by
  rw [userByte_eq h hb hx, userByte_eq h' hb hx, hl]
  by_cases hp : Present (leaf s r x)
  · have hd := h.data x hx hp
    have hpage := alignDown_word (h.dvd_of_data hd) (mod_lt_pageSize x)
    rw [if_pos hp, if_pos hp, byteAt_congr]
    refine hw.grows.frame _ (hd.owned _ hpage) fun hc => hd.used ?_
    rw [← hpage]
    exact hc
  · rw [if_neg hp, if_neg hp]

/-- **A store to the page of `v`** shows on that page only. -/
theorem userByte_store {m : Nat → Nat} (h : Loading s₀ s r) (hb : 0 < s₀.bitmapBase) (hv : v < userTop)
    (hp : Present (leaf s r v)) (hm : ∀ a, alignDown a pageSize ≠ frameOf (leaf s r v) → m a = s.mem a) (hx : x < userTop) :
    userByte { s with mem := m } x = if x / pageSize = v / pageSize then some (byteAt m (frameOf (leaf s r v) + x % pageSize))
      else userByte s x := by
  obtain ⟨h', hl⟩ := h.store (h.data v hv hp) hm
  rw [userByte_eq h' hb hx, hl x hx]
  split
  · rename_i hpr
    split
    · rename_i hpage
      rw [leaf_congr s r hv hx hpage]
    · rename_i hpage
      have hne : frameOf (leaf s r x) ≠ frameOf (leaf s r v) := fun hc => hpage (h.inj x v hx hv hpr hp hc)
      have hword := alignDown_word (h.dvd_of_data (h.data x hx hpr)) (mod_lt_pageSize x)
      rw [userByte_eq h hb hx, if_pos hpr, byteAt_congr]
      apply hm
      rw [hword]
      exact hne
  · rename_i hpr
    rw [if_neg, userByte_eq h hb hx, if_neg hpr]
    intro hpage
    rw [leaf_congr s r hv hx hpage] at hpr
    exact hpr hp

/-- **A page is zeroed**, if it is mapped. -/
theorem userByte_zeroPage (h : Loading s₀ s r) (hb : 0 < s₀.bitmapBase) (hv : v < userTop) (hd : pageSize ∣ v)
    (hx : x < userTop) : userByte (zeroPage s v) x =
      if x / pageSize = v / pageSize then (userByte s x).map fun _ => 0 else userByte s x := by
  unfold zeroPage
  dsimp only
  by_cases hphys : vmmUserVirtToPhys s v = 0
  · rw [if_neg (not_not.2 hphys)]
    split
    · rename_i hpage
      rw [userByte_eq h hb hx, if_neg]
      · rfl
      intro hpr
      have hl := h.lookup (pml4Idx_of_user hv)
      rw [mod_of_user hv, ← leaf_congr s r hv hx hpage, if_pos hpr, hphys] at hl
      obtain ⟨i, -, -, hi⟩ := (h.data x hx hpr).free
      omega
    · rfl
  · rw [if_pos hphys]
    obtain ⟨hpr, hf, hdata⟩ := h.target (pml4Idx_of_user hv) hd hphys
    rw [mod_of_user hv] at hpr hf
    have hdvd := h.dvd_of_data hdata
    refine (userByte_store h hb hv hpr (fun a ha => if_neg fun hc => ha ?_) hx).trans ?_
    · rw [← hf]
      exact alignDown_eq_of_dvd hdvd hc.1 hc.2
    · split
      · rename_i hpage
        have hword := alignDown_word hdvd (mod_lt_pageSize x)
        rw [userByte_eq h hb hx, leaf_congr s r hv hx hpage, if_pos hpr, Option.map_some]
        refine congrArg some ?_
        have hz : (if vmmUserVirtToPhys s v ≤ alignDown (vmmUserVirtToPhys s v + x % pageSize) 8 ∧
            alignDown (vmmUserVirtToPhys s v + x % pageSize) 8 < vmmUserVirtToPhys s v + pageSize then 0
            else s.mem (alignDown (vmmUserVirtToPhys s v + x % pageSize) 8)) = 0 := by
          apply if_pos
          unfold alignDown pageSize at *
          omega
        rw [← hf]
        exact (congrArg (fun w => byteOf w _) hz).trans (byteOf_zero _)
      · rfl

/-- **Bytes copied to a page** that is mapped. -/
theorem userByte_copyTo {off : Nat} {data : List UInt8} (h : Loading s₀ s r) (hb : 0 < s₀.bitmapBase) (hv : v < userTop)
    (hd : pageSize ∣ v) (hphys : vmmUserVirtToPhys s v ≠ 0) (hoff : off + data.length ≤ pageSize) (hx : x < userTop) :
    userByte (copyTo s (vmmUserVirtToPhys s v + off) data) x =
      if v + off ≤ x ∧ x < v + off + data.length then (data[x - (v + off)]?).map UInt8.toNat else userByte s x := by
  obtain ⟨hpr, hf, hdata⟩ := h.target (pml4Idx_of_user hv) hd hphys
  rw [mod_of_user hv] at hpr hf
  obtain ⟨q, hq⟩ := h.dvd_of_data hdata
  obtain ⟨p, hp⟩ := hd
  refine (userByte_store h hb hv hpr (fun a ha => storeBytes_of_apart fun i hi hc => ha ?_) hx).trans ?_
  · rw [← hc, ← hf]
    unfold alignDown pageSize at *
    omega
  rw [← hf, byteAt_storeBytes]
  by_cases hpage : x / pageSize = v / pageSize
  · have hxv : x % pageSize = x - v := by
      unfold pageSize at *
      omega
    have hvx : v ≤ x := by
      unfold pageSize at *
      omega
    have hsub : vmmUserVirtToPhys s v + x % pageSize - (vmmUserVirtToPhys s v + off) = x - (v + off) := by omega
    rw [if_pos hpage, hsub]
    have hold : userByte s x = some (byteAt s.mem (vmmUserVirtToPhys s v + x % pageSize)) := by
      rw [userByte_eq h hb hx, leaf_congr s r hv hx hpage, if_pos hpr, hf]
    by_cases hin : v + off ≤ x ∧ x < v + off + data.length
    · have hlt : x - (v + off) < data.length := by omega
      rw [if_pos hin, if_pos (by omega), List.getElem?_eq_getElem hlt]
      rfl
    · rw [if_neg hin, hold]
      by_cases hle : v + off ≤ x
      · have hge : data.length ≤ x - (v + off) := by omega
        rw [if_pos (by omega), List.getElem?_eq_none hge]
        rfl
      · rw [if_neg (by omega)]
  · rw [if_neg hpage, if_neg]
    rintro ⟨h1, h2⟩
    refine hpage ?_
    unfold pageSize at *
    omega

end Steps

/-! ## The loops -/

section Loops

variable {s₀ s s' : State} {r virt flags x : Nat} {file : List UInt8}

/-- **The loop of `vmm_alloc_pages` maps every page of the range**, if a page is still free when it ends. -/
theorem userByte_allocLoop (hb : 0 < s₀.bitmapBase) (hx : x < userTop) : ∀ {n off : Nat} {s : State}, Loading s₀ s r →
    pageSize ∣ virt + off → virt + off ≠ 0 → virt + off + n * pageSize ≤ userTop →
    vmmAllocLoop virt flags n off s = (true, s') → (∃ t, s'.Free t) →
    (virt + off ≤ x ∧ x < virt + off + n * pageSize → (userByte s' x).isSome = true) ∧
      (¬(virt + off ≤ x ∧ x < virt + off + n * pageSize) → userByte s' x = userByte s x)
  | 0, off, s, h, _, _, _, hl, _ => by
    cases hl
    exact ⟨fun hc => by omega, fun _ => rfl⟩
  | n + 1, off, s, h, hd, h0, hle, hl, hfree => by
    unfold vmmAllocLoop at hl
    rcases ha : pmmAllocPage s with ⟨_ | m, s₁⟩
    · rw [ha] at hl
      cases hl
    rw [ha] at hl
    rw [Nat.succ_mul] at hle ⊢
    have hadd : add64 virt off = virt + off := by
      apply add64_of_lt
      unfold userTop word64 pageSize at *
      omega
    have hlt : virt + off < userTop := by
      unfold pageSize at hle
      omega
    rw [hadd] at hl
    have hl : vmmAllocLoop virt flags n (off + pageSize) (vmmMapPage s₁ (virt + off) (m + 1) flags) = (true, s') := hl
    have hmaps := mapsUser_of_lt hlt
    obtain ⟨hw1, h1, hset⟩ := h.mapPage flags ha (Nat.succ_ne_zero m) hmaps.1 hmaps.2
    have hle' : virt + (off + pageSize) + n * pageSize ≤ userTop := by omega
    have hd' : pageSize ∣ virt + (off + pageSize) := by
      rw [← Nat.add_assoc]
      exact Nat.dvd_add hd (Nat.dvd_refl _)
    obtain ⟨hw2, -⟩ := h1.allocLoop flags (allocUser_of_range hle')
    rw [hl] at hw2
    -- a page is still free, so the tables of this one were found
    have hset' := hset h0 hlt (h.base.symm ▸ hb) (hfree.imp fun t ht => hw2.grows.still t ht)
    obtain ⟨ih1, ih2⟩ := userByte_allocLoop hb hx h1 hd' (by omega) hle' hl hfree
    have hpage : x / pageSize = (virt + off) / pageSize ↔ virt + off ≤ x ∧ x < virt + off + pageSize := by
      obtain ⟨q, hq⟩ := hd
      rw [hq]
      unfold pageSize
      omega
    by_cases hin : virt + (off + pageSize) ≤ x ∧ x < virt + (off + pageSize) + n * pageSize
    · exact ⟨fun _ => ih1 hin, fun hc => absurd (by omega) hc⟩
    rw [ih2 hin]
    by_cases hx1 : x / pageSize = (virt + off) / pageSize
    · have hleaf := hset' x hx
      rw [if_pos hx1] at hleaf
      have hin1 := hpage.1 hx1
      refine ⟨fun _ => ?_, fun hc => absurd (by omega) hc⟩
      rw [userByte_eq h1 hb hx, hleaf, if_pos (present_pteFor _ _)]
      rfl
    · have hleaf := hset' x hx
      rw [if_neg hx1] at hleaf
      have hout : ¬(virt + off ≤ x ∧ x < virt + off + pageSize) := fun hc => hx1 (hpage.2 hc)
      exact ⟨fun hc => absurd hc (by omega), fun _ => userByte_works h h1 hb hw1 hx hleaf⟩

theorem zeroPage_free (s : State) (pg : Nat) : (zeroPage s pg).Free = s.Free := by
  unfold zeroPage
  dsimp only
  split <;> rfl

/-- **Every page of the list is zeroed.** -/
theorem userByte_zeroPages (hb : 0 < s₀.bitmapBase) (hx : x < userTop) : ∀ {l : List Nat} {s : State}, Loading s₀ s r →
    (∀ pg ∈ l, pageSize ∣ pg ∧ pg < userTop) → Loading s₀ (l.foldl zeroPage s) r ∧ (l.foldl zeroPage s).Free = s.Free ∧
      userByte (l.foldl zeroPage s) x =
        if ∃ pg ∈ l, x / pageSize = pg / pageSize then (userByte s x).map fun _ => 0 else userByte s x
  | [], s, h, _ => by
    refine ⟨h, rfl, (if_neg ?_).symm⟩
    rintro ⟨pg, hpg, -⟩
    cases hpg
  | pg :: l, s, h, hl => by
    obtain ⟨hd, hlt⟩ := hl pg List.mem_cons_self
    obtain ⟨h1, -⟩ := h.zeroPage (pml4Idx_of_user hlt) hd
    obtain ⟨h2, hf, hu⟩ := userByte_zeroPages hb hx h1 fun q hq => hl q (List.mem_cons_of_mem pg hq)
    refine ⟨h2, hf.trans (zeroPage_free s pg), ?_⟩
    rw [List.foldl_cons, hu, userByte_zeroPage h hb hlt hd hx]
    by_cases h1 : x / pageSize = pg / pageSize
    · have hex : ∃ q ∈ pg :: l, x / pageSize = q / pageSize := ⟨pg, List.mem_cons_self, h1⟩
      rw [if_pos h1, if_pos hex]
      split
      · rw [Option.map_map]
        rfl
      · rfl
    · rw [if_neg h1]
      simp only [List.mem_cons, exists_eq_or_imp, h1, false_or]

/-- **The file's bytes are copied**, all of them. -/
theorem userByte_copyFile (hb : 0 < s₀.bitmapBase) (hx : x < userTop) :
    ∀ {fuel dst remaining pos : Nat} {s : State}, Loading s₀ s r → remaining ≤ fuel → dst + remaining ≤ userTop →
    copyFile file fuel s dst remaining pos = (0, s') → Loading s₀ s' r ∧ s'.Free = s.Free ∧
      (remaining ≠ 0 → pos + remaining ≤ file.length) ∧ userByte s' x =
        if dst ≤ x ∧ x < dst + remaining then (file[pos + (x - dst)]?).map UInt8.toNat else userByte s x
  | 0, dst, remaining, pos, s, h, hf, _, hc => by
    cases hc
    have h0 : remaining = 0 := Nat.le_zero.1 hf
    subst h0
    exact ⟨h, rfl, fun hc => absurd rfl hc, (if_neg (by omega)).symm⟩
  | fuel + 1, dst, remaining, pos, s, h, hf, hle, hc => by
    unfold copyFile at hc
    dsimp only at hc
    by_cases h0 : remaining = 0
    · rw [if_pos h0] at hc
      cases hc
      exact ⟨h, rfl, fun hc => absurd h0 hc, (if_neg (by omega)).symm⟩
    rw [if_neg h0] at hc
    by_cases hp : vmmUserVirtToPhys s (alignDown dst pageSize) = 0
    · rw [if_pos hp] at hc
      cases hc
    rw [if_neg hp] at hc
    have hchunk : (vfsRead file (min remaining (pageSize - (dst - alignDown dst pageSize))) pos).length =
        min (min remaining (pageSize - (dst - alignDown dst pageSize))) (file.length - pos) := by
      rw [vfsRead, List.length_take, List.length_drop]
    have hget : ∀ i, i < (vfsRead file (min remaining (pageSize - (dst - alignDown dst pageSize))) pos).length →
        (vfsRead file (min remaining (pageSize - (dst - alignDown dst pageSize))) pos)[i]? = file[pos + i]? := by
      intro i hi
      rw [vfsRead, List.getElem?_take_of_lt (by omega), List.getElem?_drop]
    generalize vfsRead file (min remaining (pageSize - (dst - alignDown dst pageSize))) pos = data at hc hchunk hget
    cases data with
    | nil => cases hc
    | cons b data =>
      have hlen1 : (b :: data).length ≤ remaining := by omega
      have hlen2 : (b :: data).length ≤ pageSize - (dst - alignDown dst pageSize) := by omega
      have hlen3 : (b :: data).length ≤ file.length - pos := by omega
      have hpos : 0 < (b :: data).length := Nat.succ_pos _
      dsimp only at hc
      generalize b :: data = data at hc hget hlen1 hlen2 hlen3 hpos
      have hbase : alignDown dst pageSize ≤ dst := alignDown_le _ _
      have hoffpage : dst - alignDown dst pageSize < pageSize := by
        unfold alignDown pageSize
        omega
      have hoff : dst - alignDown dst pageSize + data.length ≤ pageSize := by omega
      have hlt : alignDown dst pageSize < userTop := by omega
      have hadd : add64 dst data.length = dst + data.length := by
        apply add64_of_lt
        unfold userTop word64 at *
        omega
      rw [hadd] at hc
      have h1 := (h.copyTo data (pml4Idx_of_user hlt) (dvd_alignDown _ _) hp hoff).1
      obtain ⟨h2, hfree, hfile, hu⟩ := userByte_copyFile hb hx h1 (by omega) (by omega) hc
      refine ⟨h2, hfree, fun _ => ?_, ?_⟩
      · by_cases hr : remaining - data.length = 0
        · omega
        · have := hfile hr
          omega
      have hsplit : alignDown dst pageSize + (dst - alignDown dst pageSize) = dst := by omega
      rw [hu, userByte_copyTo h hb hlt (dvd_alignDown _ _) hp hoff hx, hsplit]
      by_cases hin1 : dst ≤ x ∧ x < dst + data.length
      · rw [if_neg (by omega), if_pos hin1, if_pos (by omega), hget _ (by omega)]
      · rw [if_neg hin1]
        by_cases hin2 : dst + data.length ≤ x ∧ x < dst + data.length + (remaining - data.length)
        · have hidx : pos + data.length + (x - (dst + data.length)) = pos + (x - dst) := by omega
          rw [if_pos hin2, if_pos (by omega), hidx]
        · rw [if_neg hin2, if_neg (by omega)]

/-- **What loading a segment puts at an address**: the file's byte, or 0 in the rest of its pages. -/
def Segment.placeAt (file : List UInt8) (g : Segment) (x : Nat) (old : Option Nat) : Option Nat :=
  if g.vaddr ≤ x ∧ x < g.vaddr + g.filesz then (file[g.offset + (x - g.vaddr)]?).map UInt8.toNat
  else if g.mapStart ≤ x ∧ x < g.mapEnd then some 0
  else old

theorem userByte_loadSegment {g : Segment} (h : Loading s₀ s r) (hb : 0 < s₀.bitmapBase) (hu : g.InUser)
    (hl : loadSegment file s g = (0, s')) (hfree : ∃ t, s'.Free t) :
    Loading s₀ s' r ∧ (∀ t, s'.Free t → s.Free t) ∧ (g.filesz ≠ 0 → g.offset + g.filesz ≤ file.length) ∧
      ∀ x, x < userTop → userByte s' x = g.placeAt file x (userByte s x) := by
  obtain ⟨-, hend, hsum, hdvd⟩ := Segment.mapEnd_of_user hu.1
  have hturns := Segment.turns hu.1
  have hstart : pageSize ∣ g.mapStart := dvd_alignDown _ _
  rw [loadSegment_eq] at hl
  split at hl
  · cases hl
  rename_i hne
  obtain ⟨hok, h0⟩ := vmmAllocPages_ne_zero hne
  have hrange : g.mapStart + 0 + (g.mapSize + (pageSize - 1)) / pageSize * pageSize = g.mapEnd := by
    rw [hturns, Nat.add_zero, hsum]
  obtain ⟨hw1, h1⟩ := h.allocLoop (vmmFlags g.prot) (allocUser_of_range (hrange.trans_le hend))
  rw [vmmAllocPages_snd] at hl
  have hrun : vmmAllocLoop g.mapStart (vmmFlags g.prot) ((g.mapSize + (pageSize - 1)) / pageSize) 0 s =
      (true, (vmmAllocLoop g.mapStart (vmmFlags g.prot) ((g.mapSize + (pageSize - 1)) / pageSize) 0 s).2) :=
    Prod.ext hok rfl
  generalize (vmmAllocLoop g.mapStart (vmmFlags g.prot) ((g.mapSize + (pageSize - 1)) / pageSize) 0 s).2 = s₁ at hl hw1 h1 hrun
  have hpages : ∀ pg ∈ pagesOf g.mapStart g.mapEnd, pageSize ∣ pg ∧ pg < userTop := by
    intro pg hpg
    obtain ⟨j, hj, rfl⟩ := List.mem_map.1 hpg
    rw [List.mem_range] at hj
    refine ⟨Nat.dvd_add hstart ⟨j, Nat.mul_comm _ _⟩, ?_⟩
    unfold pageSize at *
    omega
  have hzero := fun x hx => userByte_zeroPages (x := x) hb hx h1 hpages
  have hcopy := fun x hx => userByte_copyFile (x := x) hb hx (hzero x hx).1 (Nat.le_refl _) hu.2 hl
  obtain ⟨-, hf1, -⟩ := hzero 0 (by decide)
  obtain ⟨h3, hf2, hfile, -⟩ := hcopy 0 (by decide)
  have hfree1 : ∃ t, s₁.Free t := by
    rw [hf2, hf1] at hfree
    exact hfree
  refine ⟨h3, fun t ht => ?_, hfile, fun x hx => ?_⟩
  · rw [hf2, hf1] at ht
    exact hw1.grows.still t ht
  · have hstart0 : pageSize ∣ g.mapStart + 0 := by
      rw [Nat.add_zero]
      exact hstart
    have h00 : g.mapStart + 0 ≠ 0 := by
      rw [Nat.add_zero]
      exact h0
    obtain ⟨ha1, ha2⟩ := userByte_allocLoop hb hx h hstart0 h00 (hrange.trans_le hend) hrun hfree1
    rw [hrange, Nat.add_zero] at ha1 ha2
    obtain ⟨-, -, hz⟩ := hzero x hx
    obtain ⟨-, -, -, hc⟩ := hcopy x hx
    rw [hc, Segment.placeAt, hz, ite_congr (propext (exists_mem_pagesOf hstart hdvd)) (fun _ => rfl) fun _ => rfl]
    by_cases hdata : g.vaddr ≤ x ∧ x < g.vaddr + g.filesz
    · rw [if_pos hdata, if_pos hdata]
    rw [if_neg hdata, if_neg hdata]
    by_cases hin : g.mapStart ≤ x ∧ x < g.mapEnd
    · rw [if_pos hin, if_pos hin]
      obtain ⟨b, hb'⟩ := Option.isSome_iff_exists.1 (ha1 hin)
      rw [hb', Option.map_some]
    · rw [if_neg hin, if_neg hin]
      exact ha2 hin

theorem copyFile_result : ∀ {fuel dst remaining pos : Nat} {s : State},
    (copyFile file fuel s dst remaining pos).1 < 0 ∨ (copyFile file fuel s dst remaining pos).1 = 0
  | 0, _, _, _, _ => .inr rfl
  | fuel + 1, dst, remaining, pos, s => by
    unfold copyFile
    dsimp only
    split
    · exact .inr rfl
    split
    · exact .inl (by decide : -efault < 0)
    split
    · exact .inl (by decide : -eio < 0)
    · exact copyFile_result

/-- A segment is loaded, or there is an error. -/
theorem loadSegment_result {g : Segment} {q : Int} (h : loadSegment file s g = (q, s')) : q < 0 ∨ q = 0 := by
  have hq : (loadSegment file s g).1 = q := congrArg Prod.fst h
  rw [← hq, loadSegment_eq]
  split
  · exact .inl (by decide : -enomem < 0)
  · exact copyFile_result

end Loops

end Exec
end Pico
