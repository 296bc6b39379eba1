import Picomimi.PagingMap
import Mathlib.Data.Nat.Bitwise
/-!
# PagingPhys — `vmm_get_phys` beside `vmm_user_virt_to_phys`

The two translators walk alike and differ in the mask of the last entry: `vmm_user_virt_to_phys` keeps bits 12 to 51 of a
small page's entry, `vmm_get_phys` every bit from 12 on, and both every bit above the offset of a large page's.  So they
agree, on an address below `2^52`, where the entry itself is below `2^52` (`agree_iff`): not where it has `PTE_NX`.
-/
namespace Pico
namespace Paging

open Lib

/-- `vmm_get_phys` takes CR3 as it is, `vmm_user_virt_to_phys` without its low bits. -/
def vmmGetPhys (s : State) (virt : Nat) : Nat := vmmGetPhysIn s.mem s.cr3 virt

/-- The entry that maps an address, a small page's or a large one's. -/
def entryOf (s : State) (virt : Nat) : Nat := vmmPteForVirtIn s.mem (readCr3 s) virt

def Mapped (s : State) (virt : Nat) : Prop := Present (entryOf s virt)

instance (s : State) (virt : Nat) : Decidable (Mapped s virt) := inferInstanceAs (Decidable (Present _))

/-- **The translators agree at an address.** -/
structure Agree (s : State) (virt : Nat) : Prop where
  same : vmmGetPhys s virt = vmmUserVirtToPhys s virt
  below : vmmUserVirtToPhys s virt < 0x10000000000000
  offset : Mapped s virt → vmmUserVirtToPhys s virt % pageSize = virt % pageSize

variable {s : State} {mem : Nat → Nat} {r v w phys flags e : Nat}

/-- **What the walkers make of an address**: nothing, or an address in a large page or a small one. -/
inductive Walked (mem : Nat → Nat) (r virt : Nat) : Prop where
  | unmapped (hp : ¬Present (vmmPteForVirtIn mem r virt)) (hget : vmmGetPhysIn mem r virt = 0)
      (huser : virtToPhysIn mem r virt = 0)
  | large (size : Nat) (hsize : size = 0x40000000 ∨ size = 0x200000) (hp : Present (vmmPteForVirtIn mem r virt))
      (hget : vmmGetPhysIn mem r virt = alignDown (vmmPteForVirtIn mem r virt) size + virt % size)
      (huser : virtToPhysIn mem r virt = alignDown (vmmPteForVirtIn mem r virt) size + virt % size)
  | small (hp : Present (vmmPteForVirtIn mem r virt))
      (hget : vmmGetPhysIn mem r virt = tableOf (vmmPteForVirtIn mem r virt) + virt % 0x1000)
      (huser : virtToPhysIn mem r virt = frameOf (vmmPteForVirtIn mem r virt) + virt % 0x1000)

theorem walked (mem : Nat → Nat) (r v : Nat) : Walked mem r v := by
  by_cases p4 : Present (mem (pml4Slot r v))
  · by_cases p3 : Present (mem (pdptSlot mem r v))
    · by_cases q3 : Huge (mem (pdptSlot mem r v))
      · have he : vmmPteForVirtIn mem r v = mem (pdptSlot mem r v) := by
          simp only [vmmPteForVirtIn, p4, p3, q3, not_true_eq_false, if_false, if_true]
        refine .large 0x40000000 (.inl rfl) (he ▸ p3) ?_ ?_
        · simp only [vmmGetPhysIn, p4, p3, q3, he, not_true_eq_false, if_false, if_true]
        · simp only [virtToPhysIn, p4, p3, q3, he, not_true_eq_false, if_false, if_true]
      · by_cases p2 : Present (mem (pdSlot mem r v))
        · by_cases q2 : Huge (mem (pdSlot mem r v))
          · have he : vmmPteForVirtIn mem r v = mem (pdSlot mem r v) := by
              simp only [vmmPteForVirtIn, p4, p3, q3, p2, q2, not_true_eq_false, if_false, if_true]
            refine .large 0x200000 (.inr rfl) (he ▸ p2) ?_ ?_
            · simp only [vmmGetPhysIn, p4, p3, q3, p2, q2, he, not_true_eq_false, if_false, if_true]
            · simp only [virtToPhysIn, p4, p3, q3, p2, q2, he, not_true_eq_false, if_false, if_true]
          · have he : vmmPteForVirtIn mem r v = mem (ptSlot mem r v) := by
              simp only [vmmPteForVirtIn, p4, p3, q3, p2, q2, not_true_eq_false, if_false]
            by_cases p1 : Present (mem (ptSlot mem r v))
            · refine .small (he ▸ p1) ?_ ?_
              · simp only [vmmGetPhysIn, p4, p3, q3, p2, q2, p1, he, not_true_eq_false, if_false]
              · simp only [virtToPhysIn, p4, p3, q3, p2, q2, p1, he, not_true_eq_false, if_false]
            · refine .unmapped (he ▸ p1) ?_ ?_
              · simp only [vmmGetPhysIn, p4, p3, q3, p2, q2, p1, not_true_eq_false, not_false_eq_true, if_false, if_true]
              · simp only [virtToPhysIn, p4, p3, q3, p2, q2, p1, not_true_eq_false, not_false_eq_true, if_false, if_true]
        · refine .unmapped ?_ ?_ ?_
          · simp only [vmmPteForVirtIn, p4, p3, q3, p2, not_true_eq_false, not_false_eq_true, if_false, if_true]
            exact not_present_zero
          · simp only [vmmGetPhysIn, p4, p3, q3, p2, not_true_eq_false, not_false_eq_true, if_false, if_true]
          · simp only [virtToPhysIn, p4, p3, q3, p2, not_true_eq_false, not_false_eq_true, if_false, if_true]
    · refine .unmapped ?_ ?_ ?_
      · simp only [vmmPteForVirtIn, p4, p3, not_true_eq_false, not_false_eq_true, if_false, if_true]
        exact not_present_zero
      · simp only [vmmGetPhysIn, p4, p3, not_true_eq_false, not_false_eq_true, if_false, if_true]
      · simp only [virtToPhysIn, p4, p3, not_true_eq_false, not_false_eq_true, if_false, if_true]
  · refine .unmapped ?_ ?_ ?_
    · rw [vmmPteForVirtIn, if_pos p4]
      exact not_present_zero
    · rw [vmmGetPhysIn, if_pos p4]
    · rw [virtToPhysIn, if_pos p4]

/-! ## The masks -/

theorem frameOf_lt (e : Nat) : frameOf e + v % 0x1000 < 0x10000000000000 := by
  unfold frameOf
  omega

/-- The masks of a small page's entry make one address of it when it has no bit from 52 on. -/
theorem tableOf_eq_frameOf_iff : tableOf e = frameOf e ↔ e < 0x10000000000000 := by
  unfold tableOf frameOf alignDown
  omega

/-- **The translators agree exactly where the entry has no bit from 52 on**, and where there is none. -/
theorem agree_iff (s : State) (v : Nat) (hroot : pageSize ∣ s.cr3) :
    Agree s v ↔ (Mapped s v → entryOf s v < 0x10000000000000) := by
  have hcr3 : readCr3 s = s.cr3 := tableOf_of_dvd hroot
  have hget : vmmGetPhys s v = vmmGetPhysIn s.mem (readCr3 s) v := by rw [hcr3]; rfl
  have huser : vmmUserVirtToPhys s v = virtToPhysIn s.mem (readCr3 s) v := rfl
  have hmap : Mapped s v ↔ Present (vmmPteForVirtIn s.mem (readCr3 s) v) := Iff.rfl
  have hent : entryOf s v = vmmPteForVirtIn s.mem (readCr3 s) v := rfl
  rw [hmap, hent]
  cases walked s.mem (readCr3 s) v with
  | unmapped hp hg hu =>
    rw [← huser] at hu
    refine ⟨fun _ hc => absurd hc hp, fun _ => ⟨?_, ?_, fun hc => absurd hc hp⟩⟩
    · rw [hget, hg, hu]
    · rw [hu]
      decide
  | large size hsize hp hg hu =>
    rw [← huser] at hu
    refine ⟨fun h _ => ?_, fun h => ⟨?_, ?_, fun _ => ?_⟩⟩
    · have hb := h.below
      rw [hu] at hb
      unfold alignDown at hb
      rcases hsize with rfl | rfl <;> omega
    · rw [hget, hg, hu]
    · have hb := h hp
      rw [hu]
      unfold alignDown
      rcases hsize with rfl | rfl <;> omega
    · rw [hu]
      unfold alignDown pageSize
      rcases hsize with rfl | rfl <;> omega
  | small hp hg hu =>
    rw [← huser] at hu
    refine ⟨fun h _ => ?_, fun h => ⟨?_, ?_, fun _ => ?_⟩⟩
    · have hs := h.same
      rw [hget, hg, hu] at hs
      exact tableOf_eq_frameOf_iff.1 (Nat.add_right_cancel hs)
    · rw [hget, hg, hu, tableOf_eq_frameOf_iff.2 (h hp)]
    · rw [hu]
      exact frameOf_lt _
    · rw [hu]
      unfold frameOf pageSize
      omega

theorem agree_iff_mappedOnce : (Mapped mappedOnce 0x400020 → entryOf mappedOnce 0x400020 < 0x10000000000000) ∧
    Agree mappedOnce 0x400020 := by
  have he : Mapped mappedOnce 0x400020 → entryOf mappedOnce 0x400020 < 0x10000000000000 := by decide +kernel
  have hroot : pageSize ∣ mappedOnce.cr3 := by decide +kernel
  exact ⟨he, (agree_iff mappedOnce 0x400020 hroot).2 he⟩

/-! ## What was mapped -/

theorem and_pteNx (flags : Nat) : flags &&& pteNx = if NoExec flags then pteNx else 0 := by
  have hnx : pteNx = 2 ^ 63 := rfl
  rw [hnx, Nat.and_comm, Nat.two_pow_and]
  by_cases h : NoExec flags
  · rw [if_pos h, noExec_iff.1 h]
    exact Nat.mul_one _
  · rw [if_neg h, Bool.eq_false_iff.2 fun hc => h (noExec_iff.2 hc)]
    exact Nat.mul_zero _

/-- **A stored entry has no bit from 52 on** unless the address or `PTE_NX` puts one there. -/
theorem pteFor_lt_iff (phys flags : Nat) :
    pteFor phys flags < 0x10000000000000 ↔ phys < 0x10000000000000 ∧ ¬NoExec flags := by
  have hdiv : pteFor phys flags / 2 ^ 52 = phys / 2 ^ 52 ||| (flags &&& pteNx) / 2 ^ 52 := by
    have ht : tableOf phys / 2 ^ 52 = phys / 2 ^ 52 := by
      unfold tableOf alignDown
      omega
    have hfff : (0x0FFF : Nat) / 2 ^ 52 = 0 := by decide
    have hp : ptePresent / 2 ^ 52 = 0 := by decide
    unfold pteFor
    rw [Nat.or_div_two_pow, Nat.or_div_two_pow, Nat.or_div_two_pow, ht, Nat.and_div_two_pow, hfff, Nat.and_zero, Nat.or_zero, hp,
      Nat.or_zero]
  have hzero : ∀ n, n < 0x10000000000000 ↔ n / 2 ^ 52 = 0 := fun n => by omega
  rw [hzero, hdiv, Nat.or_eq_zero_iff, hzero phys, and_pteNx]
  by_cases h : NoExec flags
  · rw [if_pos h]
    exact ⟨fun hc => absurd hc.2 (by decide), fun hc => absurd h hc.2⟩
  · rw [if_neg h]
    exact ⟨fun hc => ⟨hc.1, h⟩, fun hc => ⟨hc.1, rfl⟩⟩

/-- **After `vmm_map_page` the translators agree on the page mapped exactly when it was mapped without `PTE_NX`**, at an
address below `2^52`; elsewhere they agree where they did. -/
theorem agree_mapped_iff (h : Whole s (readCr3 s)) (hroot : pageSize ∣ s.cr3) (hv : v < pteNx) (hv0 : v ≠ 0)
    (ha : CanAllocate (missing s.mem (readCr3 s) v) s) (w : Nat) :
    Agree (vmmMapPage s v phys flags) w ↔
      if walkPage w = walkPage v then phys < 0x10000000000000 ∧ ¬NoExec flags else Agree s w := by
  have hmap : vmmMapPage s v phys flags = vmmMapPageInPgd s (readCr3 s) v phys flags := by
    rw [vmmMapPage_eq, if_neg (Nat.not_le.2 hv)]
  obtain ⟨hsteps, hset⟩ := h.toTables.mapInPgd_spec phys flags (pml4Idx_lt v) hv0
  rw [if_pos (h.toTables.obtainPt_some (pml4Idx_lt v) ha)] at hset
  have hcr3 := hsteps.cr3
  have hwhole := hsteps.whole h
  rw [hmap]
  generalize vmmMapPageInPgd s (readCr3 s) v phys flags = s' at hset hcr3 hwhole
  have hread : readCr3 s' = readCr3 s := congrArg tableOf hcr3
  have hold : entryOf s w = leaf s (readCr3 s) w := vmmPteForVirtIn_leaf (h.noLarge w)
  have hnew : entryOf s' w = leaf s' (readCr3 s) w := by
    rw [entryOf, hread]
    exact vmmPteForVirtIn_leaf (hwhole.noLarge w)
  rw [agree_iff s' w (hcr3 ▸ hroot), Mapped, hnew, hset w (pml4Idx_lt w)]
  by_cases hw : walkPage w = walkPage v
  · rw [if_pos hw, if_pos hw, pteFor_lt_iff]
    exact ⟨fun hc => hc (present_pteFor phys flags), fun hc _ => hc⟩
  · rw [if_neg hw, if_neg hw, agree_iff s w hroot, Mapped, hold]

theorem agree_mapped_iff_second : Agree (vmmMapPage mappedOnce 0x40000000 0x300000 pteUser) 0x40000010 := by
  have hv : 0x40000000 < pteNx := (by omega : 0x40000000 < 0x8000000000000000)
  have hmap : Agree (vmmMapPage mappedOnce 0x40000000 0x300000 pteUser) 0x40000010 ↔ _ :=
    agree_mapped_iff mappedOnce_whole (by decide +kernel) hv (by decide) mappedOnce_canAllocate 0x40000010
  rw [if_pos (by decide)] at hmap
  exact hmap.2 (by decide)

/-- A page that may be read is mapped with `PTE_NX`: `vmm_get_phys` keeps the bit. -/
theorem not_agree_noExec : ¬Agree (vmmMapPage emptyRoot 0x400000 0x200000 (pteUser ||| pteNx)) 0x400000 := by
  intro h
  have hsame := h.same
  revert hsame
  decide +kernel

end Paging
end Pico
