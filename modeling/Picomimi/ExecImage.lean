import Picomimi.ExecView
/-!
# ExecImage — the image in memory and the file

Segments are loaded in the order of their headers, and the last one with a page wins it whole.  So what the program finds in
its memory is the file's image but for the bytes of a page that a later segment has too (`image_iff`).
-/
namespace Pico
namespace Exec

open Lib Paging AddrSpace

def loads (phdrs : List Elf64Phdr) : List Elf64Phdr := phdrs.filter (·.pType = ptLoad)

namespace Elf64Phdr

/-- A segment without memory is passed over. -/
def place (file : List UInt8) (loadBias x : Nat) (old : Option Nat) (p : Elf64Phdr) : Option Nat :=
  if p.pMemsz = 0 then old else (elfSegment p loadBias).placeAt file x old

/-- The page of `x` is mapped for the segment. -/
def Maps (loadBias x : Nat) (p : Elf64Phdr) : Prop :=
  p.pMemsz ≠ 0 ∧ (elfSegment p loadBias).mapStart ≤ x ∧ x < (elfSegment p loadBias).mapEnd

instance (loadBias x : Nat) (p : Elf64Phdr) : Decidable (p.Maps loadBias x) := inferInstanceAs (Decidable (_ ∧ _))

/-- `x` is a byte of the segment: of its memory, or one its file bytes go to. -/
def Covers (loadBias x : Nat) (p : Elf64Phdr) : Prop :=
  add64 p.pVaddr loadBias ≤ x ∧ x < add64 p.pVaddr loadBias + max p.pFilesz p.pMemsz

end Elf64Phdr

/-- **The image in memory is the file's**: the file's bytes, and zeros after them. -/
def ImageOk (file : List UInt8) (loadBias : Nat) (phdrs : List Elf64Phdr) (s : State) : Prop :=
  ∀ p ∈ loads phdrs,
    (∀ i, i < p.pFilesz → ∃ b, file[p.pOffset + i]? = some b ∧ userByte s (add64 p.pVaddr loadBias + i) = some b.toNat) ∧
    ∀ i, p.pFilesz ≤ i → i < p.pMemsz → userByte s (add64 p.pVaddr loadBias + i) = some 0

/-- **No byte of the file is lost to a later segment**: it is loaded, and no later segment has its page; or it is 0, and
some segment has its page. -/
def SharedOk (file : List UInt8) (loadBias : Nat) (phdrs : List Elf64Phdr) : Prop :=
  ∀ pre p post, loads phdrs = pre ++ p :: post → ∀ i, i < p.pFilesz →
    (p.pMemsz ≠ 0 ∧ ∀ q ∈ post, ¬q.Maps loadBias (add64 p.pVaddr loadBias + i)) ∨
      (file[p.pOffset + i]? = some 0 ∧ ∃ q ∈ loads phdrs, q.Maps loadBias (add64 p.pVaddr loadBias + i))

/-! ## The segments one after another -/

section Segments

variable {s₀ s' : System} {k loadBias x : Nat} {file : List UInt8} {nodes : Nat → Option Nat}

/-- **What the program finds after the loop** over the program headers. -/
theorem userByte_loadSegments (hb : 0 < s₀.pt.bitmapBase) : ∀ {phdrs : List Elf64Phdr} {i : Nat} {s : System}, Loads s₀ s k →
    (∀ p ∈ phdrs, p.pType = ptLoad → (elfSegment p loadBias).InUser) →
    loadSegments file k loadBias nodes i phdrs s = (0, s') → (∃ t, s'.pt.Free t) →
    (∀ t, s'.pt.Free t → s.pt.Free t) ∧
      (∀ p ∈ loads phdrs, p.pMemsz ≠ 0 → p.pFilesz ≠ 0 → p.pOffset + p.pFilesz ≤ file.length) ∧
      ∀ x, x < userTop → userByte s'.pt x = (loads phdrs).foldl (Elf64Phdr.place file loadBias x) (userByte s.pt x)
  | [], i, s, h, _, hl, _ => by
    cases hl
    exact ⟨fun _ ht => ht, List.forall_mem_nil _, fun _ _ => rfl⟩
  | phdr :: phdrs, i, s, h, hin, hl, hfree => by
    have hrest : ∀ p ∈ phdrs, p.pType = ptLoad → (elfSegment p loadBias).InUser :=
      fun p hp => hin p (List.mem_cons_of_mem phdr hp)
    unfold loadSegments at hl
    by_cases ht : phdr.pType ≠ ptLoad
    · rw [if_pos ht] at hl
      have hskip : loads (phdr :: phdrs) = loads phdrs := List.filter_cons_of_neg (by rw [decide_eq_true_iff]; exact ht)
      rw [hskip]
      exact userByte_loadSegments hb h hrest hl hfree
    rw [if_neg ht] at hl
    have htake : loads (phdr :: phdrs) = phdr :: loads phdrs :=
      List.filter_cons_of_pos (by rw [decide_eq_true_iff]; exact not_not.1 ht)
    rw [htake]
    have huser := hin phdr List.mem_cons_self (not_not.1 ht)
    by_cases h0 : phdr.pMemsz = 0
    · have hskip : elfLoadSegment file s k (nodes i) phdr loadBias = (0, s) := if_pos h0
      rw [hskip] at hl
      obtain ⟨h1, h2, h3⟩ := userByte_loadSegments hb h hrest hl hfree
      refine ⟨h1, fun p hp hm => ?_, fun x hx => ?_⟩
      · rcases List.mem_cons.1 hp with rfl | hp
        · exact absurd h0 hm
        · exact h2 p hp hm
      · rw [List.foldl_cons, Elf64Phdr.place, if_pos h0]
        exact h3 x hx
    have hload : elfLoadSegment file s k (nodes i) phdr loadBias = mapSegment file s k (nodes i) (elfSegment phdr loadBias) :=
      if_neg h0
    have hnext : Loads s₀ (mapSegment file s k (nodes i) (elfSegment phdr loadBias)).2 k :=
      h.mapSegment (segmentUser_of_inUser huser)
    rw [hload] at hl
    unfold mapSegment at hl hnext
    rcases hseg : loadSegment file s.pt (elfSegment phdr loadBias) with ⟨r, pt⟩
    rw [hseg] at hl hnext
    rcases loadSegment_result hseg with hneg | rfl
    · dsimp only at hl hneg
      rw [if_pos hneg] at hl
      dsimp only at hl
      rw [if_pos hneg] at hl
      have hr : r = 0 := congrArg Prod.fst hl
      omega
    have hl : loadSegments file k loadBias nodes (i + 1) phdrs
        ⟨segmentArea s.vm k (elfSegment phdr loadBias) (nodes i), pt, s.pgd⟩ = (0, s') := hl
    obtain ⟨h1, h2, h3⟩ := userByte_loadSegments hb hnext hrest hl hfree
    obtain ⟨-, hstill, hfile, hplace⟩ := userByte_loadSegment h.pt hb huser hseg (hfree.imp h1)
    refine ⟨fun t ht => hstill t (h1 t ht), fun p hp => ?_, fun x hx => ?_⟩
    · rcases List.mem_cons.1 hp with rfl | hp
      · exact fun _ hf => hfile hf
      · exact h2 p hp
    · rw [List.foldl_cons, Elf64Phdr.place, if_neg h0, ← hplace x hx]
      exact h3 x hx

/-- All segments are loaded, or there is an error. -/
theorem loadSegments_result {r : Int} : ∀ {phdrs : List Elf64Phdr} {i : Nat} {s : System},
    loadSegments file k loadBias nodes i phdrs s = (r, s') → r < 0 ∨ r = 0
  | [], _, _, h => .inr (congrArg Prod.fst h).symm
  | phdr :: phdrs, i, s, h => by
    unfold loadSegments at h
    split at h
    · exact loadSegments_result h
    · rcases he : elfLoadSegment file s k (nodes i) phdr loadBias with ⟨q, s₁⟩
      rw [he] at h
      dsimp only at h
      split at h
      · rename_i hq
        cases h
        exact .inl hq
      · exact loadSegments_result h

/-! ## The last segment wins -/

theorem place_of_apart {p : Elf64Phdr} {old : Option Nat} (h : ¬p.Covers loadBias x) :
    p.place file loadBias x old = if p.Maps loadBias x then some 0 else old := by
  unfold Elf64Phdr.place Segment.placeAt
  have hdata : ¬((elfSegment p loadBias).vaddr ≤ x ∧ x < (elfSegment p loadBias).vaddr + (elfSegment p loadBias).filesz) := by
    rintro ⟨h1, h2⟩
    exact h ⟨h1, Nat.lt_of_lt_of_le h2 (Nat.add_le_add_left (Nat.le_max_left _ _) _)⟩
  rw [if_neg hdata]
  by_cases h0 : p.pMemsz = 0
  · rw [if_pos h0, if_neg fun hc => hc.1 h0]
  · rw [if_neg h0]
    exact ite_congr (propext ⟨fun hc => ⟨h0, hc⟩, fun hc => hc.2⟩) (fun _ => rfl) fun _ => rfl

/-- Segments without the address: 0 where one of them has the page. -/
theorem foldl_place : ∀ {l : List Elf64Phdr} {old : Option Nat}, (∀ p ∈ l, ¬p.Covers loadBias x) →
    l.foldl (Elf64Phdr.place file loadBias x) old = if ∃ p ∈ l, p.Maps loadBias x then some 0 else old
  | [], old, _ => by
    refine (if_neg ?_).symm
    rintro ⟨p, hp, -⟩
    cases hp
  | p :: l, old, h => by
    rw [List.foldl_cons, foldl_place fun q hq => h q (List.mem_cons_of_mem p hq), place_of_apart (h p List.mem_cons_self)]
    simp only [List.mem_cons, exists_eq_or_imp]
    by_cases h1 : p.Maps loadBias x
    · simp only [h1, true_or, if_true, ite_self]
    · simp only [h1, false_or, if_false]

/-- **A byte of a segment in the end**, when no other segment has its address. -/
theorem foldl_place_split {pre post : List Elf64Phdr} {p : Elf64Phdr} (hpre : ∀ q ∈ pre, ¬q.Covers loadBias x)
    (hpost : ∀ q ∈ post, ¬q.Covers loadBias x) :
    (pre ++ p :: post).foldl (Elf64Phdr.place file loadBias x) none =
      if ∃ q ∈ post, q.Maps loadBias x then some 0
      else p.place file loadBias x (if ∃ q ∈ pre, q.Maps loadBias x then some 0 else none) := by
  rw [List.foldl_append, List.foldl_cons, foldl_place hpost, foldl_place hpre]

/-- A byte the file has for a segment. -/
theorem place_data {p : Elf64Phdr} {i : Nat} (h0 : p.pMemsz ≠ 0) (hi : i < p.pFilesz) (old : Option Nat) :
    p.place file loadBias (add64 p.pVaddr loadBias + i) old = (file[p.pOffset + i]?).map UInt8.toNat := by
  have hdata : add64 p.pVaddr loadBias ≤ add64 p.pVaddr loadBias + i ∧
      add64 p.pVaddr loadBias + i < add64 p.pVaddr loadBias + p.pFilesz := by omega
  unfold Elf64Phdr.place Segment.placeAt
  rw [if_neg h0]
  refine (if_pos hdata).trans ?_
  have hsub : add64 p.pVaddr loadBias + i - add64 p.pVaddr loadBias = i := Nat.add_sub_cancel_left _ _
  exact congrArg (fun n => (file[p.pOffset + n]?).map UInt8.toNat) hsub

/-- A byte of its memory after them. -/
theorem place_zero {p : Elf64Phdr} {i : Nat} (hu : (elfSegment p loadBias).InUser) (h1 : p.pFilesz ≤ i) (h2 : i < p.pMemsz)
    (old : Option Nat) : p.place file loadBias (add64 p.pVaddr loadBias + i) old = some 0 := by
  obtain ⟨hend, -⟩ := Segment.mapEnd_of_user hu.1
  have hstart : (elfSegment p loadBias).mapStart ≤ (elfSegment p loadBias).vaddr := alignDown_le _ _
  have hva : (elfSegment p loadBias).vaddr = add64 p.pVaddr loadBias := rfl
  have hmem : (elfSegment p loadBias).memsz = p.pMemsz := rfl
  have hfile : (elfSegment p loadBias).filesz = p.pFilesz := rfl
  unfold Elf64Phdr.place Segment.placeAt
  rw [if_neg (by omega), if_neg (by omega), if_pos (by omega)]

end Segments

/-! ## `do_execve` -/

theorem not_macho_of_elf {file : List UInt8} {h : Elf64Ehdr × List Elf64Phdr} (hh : elfHeaders file = some h) :
    ¬machoProbeFile file := by
  unfold elfHeaders at hh
  dsimp only at hh
  split at hh
  · cases hh
  split at hh
  · cases hh
  rename_i hok
  have hident : file.take 4 = [0x7F, 0x45, 0x4C, 0x46] := by
    have h6 := congrArg (List.take 4) (not_not.1 hok).1
    unfold readEhdr vfsRead at h6
    simp only [List.take_take] at h6
    exact h6
  unfold machoProbeFile vfsRead
  rw [List.drop_zero, hident]
  decide

section Main

variable {s s' : System} {file : List UInt8} {a : Answers} {e : Elf64Ehdr} {phdrs : List Elf64Phdr}

/-- **The memory after a load that succeeds.** -/
theorem userByte_elfExec (hb : Booted s) (hpos : 0 < s.pt.bitmapBase) (hh : elfHeaders file = some (e, phdrs))
    (hin : ∀ p ∈ phdrs, p.pType = ptLoad → (elfSegment p e.loadBias).InUser) (h : doExecve file s a = (0, s'))
    (hfree : ∃ t, s'.pt.Free t) :
    (∀ p ∈ loads phdrs, p.pMemsz ≠ 0 → p.pFilesz ≠ 0 → p.pOffset + p.pFilesz ≤ file.length) ∧
      ∀ x, x < userTop → userByte s'.pt x = (loads phdrs).foldl (Elf64Phdr.place file e.loadBias x) none := by
  unfold doExecve at h
  rw [if_neg (not_macho_of_elf hh)] at h
  unfold elfExec at h
  split at h
  · cases h
  rw [hh] at h
  dsimp only at h
  rcases ha : mmAlloc s a.mm with ⟨_ | k, s₁⟩
  · rw [ha] at h
    cases h
  rw [ha] at h
  dsimp only at h
  rcases hl : loadSegments file k e.loadBias a.nodes 0 phdrs (switchMmTo s₁ k) with ⟨r, s₂⟩
  rw [hl] at h
  dsimp only at h
  split at h
  · rename_i hr
    have hr0 : r = 0 := congrArg Prod.fst h
    omega
  have hpt : s₂.pt = s'.pt := congrArg (fun q => q.2.pt) h
  obtain ⟨hstart, hempty⟩ := mmAlloc_loads hb ha
  have hr : r = 0 := (loadSegments_result hl).resolve_left ‹_›
  subst hr
  obtain ⟨-, h2, h3⟩ := userByte_loadSegments hpos hstart hin hl (hpt ▸ hfree)
  refine ⟨h2, fun x hx => ?_⟩
  have hnone : userByte (switchMmTo s₁ k).pt x = none := by
    rw [userByte_eq hstart.pt hpos hx, if_neg]
    exact hempty x hx
  rw [← hpt, h3 x hx, hnone]

/-- **The image in memory is the file's, exactly when no byte of the file is lost to a later segment.**  (`build_user_stack`
finds the first page of the stack, or the call fails.) -/
theorem image_iff (file : List UInt8) (s s' : System) (a : Answers) (e : Elf64Ehdr) (phdrs : List Elf64Phdr) (hb : Booted s)
    (hpos : 0 < s.pt.bitmapBase) (hh : elfHeaders file = some (e, phdrs))
    (hin : ∀ p ∈ phdrs, p.pType = ptLoad → (elfSegment p e.loadBias).InUser)
    (hd : (loads phdrs).Pairwise fun p q => ∀ x, ¬(p.Covers e.loadBias x ∧ q.Covers e.loadBias x))
    (h : doExecve file s a = (0, s')) (hstack : (pmmAllocPage s'.pt).1 ≠ 0) :
    ImageOk file e.loadBias phdrs s'.pt ↔ SharedOk file e.loadBias phdrs := by
  have hfree : ∃ t, s'.pt.Free t := ⟨_, ((pmmAllocPage_spec rfl).resolve_left fun hc => hstack hc.1).free⟩
  obtain ⟨hfile, hbyte⟩ := userByte_elfExec hb hpos hh hin h hfree
  -- a byte of `p` in the end
  have hlast : ∀ pre p post, loads phdrs = pre ++ p :: post → ∀ i, i < max p.pFilesz p.pMemsz →
      userByte s'.pt (add64 p.pVaddr e.loadBias + i) =
        if ∃ q ∈ post, q.Maps e.loadBias (add64 p.pVaddr e.loadBias + i) then some 0
        else p.place file e.loadBias (add64 p.pVaddr e.loadBias + i)
          (if ∃ q ∈ pre, q.Maps e.loadBias (add64 p.pVaddr e.loadBias + i) then some 0 else none) := by
    intro pre p post hsplit i hi
    have hp : p ∈ loads phdrs := by
      rw [hsplit]
      exact List.mem_append_right _ List.mem_cons_self
    obtain ⟨hmem, htype⟩ := List.mem_filter.1 hp
    obtain ⟨hu1, hu2⟩ := hin p hmem (of_decide_eq_true htype)
    have hu1' : add64 p.pVaddr e.loadBias + p.pMemsz ≤ userTop := hu1
    have hu2' : add64 p.pVaddr e.loadBias + p.pFilesz ≤ userTop := hu2
    have hc : p.Covers e.loadBias (add64 p.pVaddr e.loadBias + i) := ⟨Nat.le_add_right _ _, Nat.add_lt_add_left hi _⟩
    rw [hsplit, List.pairwise_append] at hd
    obtain ⟨-, hd2, hd3⟩ := hd
    rw [hbyte _ (by omega), hsplit]
    exact foldl_place_split (fun q hq hcq => hd3 q hq p List.mem_cons_self _ ⟨hcq, hc⟩)
      fun q hq hcq => (List.pairwise_cons.1 hd2).1 q hq _ ⟨hc, hcq⟩
  constructor
  · intro himage pre p post hsplit i hi
    have hp : p ∈ loads phdrs := by
      rw [hsplit]
      exact List.mem_append_right _ List.mem_cons_self
    obtain ⟨b, hb1, hb2⟩ := (himage p hp).1 i hi
    rw [hlast pre p post hsplit i (Nat.lt_of_lt_of_le hi (Nat.le_max_left _ _))] at hb2
    by_cases hpost : ∃ q ∈ post, q.Maps e.loadBias (add64 p.pVaddr e.loadBias + i)
    · rw [if_pos hpost] at hb2
      have hb0 : b = 0 := UInt8.toNat_inj.1 (Option.some.inj hb2).symm
      obtain ⟨q, hq, hm⟩ := hpost
      refine .inr ⟨hb0 ▸ hb1, q, ?_, hm⟩
      rw [hsplit]
      exact List.mem_append_right _ (List.mem_cons_of_mem p hq)
    by_cases h0 : p.pMemsz = 0
    · rw [if_neg hpost, Elf64Phdr.place, if_pos h0] at hb2
      split at hb2
      · rename_i hpre
        have hb0 : b = 0 := UInt8.toNat_inj.1 (Option.some.inj hb2).symm
        obtain ⟨q, hq, hm⟩ := hpre
        refine .inr ⟨hb0 ▸ hb1, q, ?_, hm⟩
        rw [hsplit]
        exact List.mem_append_left _ hq
      · cases hb2
    · exact .inl ⟨h0, fun q hq hm => hpost ⟨q, hq, hm⟩⟩
  · intro hshared p hp
    obtain ⟨pre, post, hsplit⟩ := List.append_of_mem hp
    obtain ⟨hmem, htype⟩ := List.mem_filter.1 hp
    have hu := hin p hmem (of_decide_eq_true htype)
    refine ⟨fun i hi => ?_, fun i h1 h2 => ?_⟩
    · rw [hlast pre p post hsplit i (Nat.lt_of_lt_of_le hi (Nat.le_max_left _ _))]
      rcases hshared pre p post hsplit i hi with ⟨h0, hpost⟩ | ⟨hzero, q, hq, hm⟩
      · have hlt : p.pOffset + i < file.length := by
          have := hfile p hp h0 (by omega)
          omega
        refine ⟨file[p.pOffset + i], List.getElem?_eq_getElem hlt, ?_⟩
        rw [if_neg fun ⟨q, hq, hm⟩ => hpost q hq hm, place_data h0 hi, List.getElem?_eq_getElem hlt]
        rfl
      · refine ⟨0, hzero, ?_⟩
        split
        · rfl
        rename_i hpost
        by_cases h0 : p.pMemsz = 0
        · rw [Elf64Phdr.place, if_pos h0, if_pos]
          · rfl
          rw [hsplit] at hq
          rcases List.mem_append.1 hq with hq | hq
          · exact ⟨q, hq, hm⟩
          · rcases List.mem_cons.1 hq with rfl | hq
            · exact absurd h0 hm.1
            · exact absurd ⟨q, hq, hm⟩ hpost
        · rw [place_data h0 hi, hzero]
          rfl
    · rw [hlast pre p post hsplit i (Nat.lt_of_lt_of_le h2 (Nat.le_max_right _ _)), place_zero hu h1 h2]
      split <;> rfl

end Main

/-! ## Two segments -/

def codeEhdr : Elf64Ehdr := ⟨[0x7F, 0x45, 0x4C, 0x46, 2, 1, 1, 0, 0, 0, 0, 0, 0, 0, 0, 0], 2, 62, 64, 56, 1⟩

def codePhdrs : List Elf64Phdr := [⟨1, 5, 120, 0x400000, 4, 4⟩]

theorem image_iff_codeFile : ∃ s', doExecve codeFile bootSystem answers = (0, s') ∧
    (ImageOk codeFile codeEhdr.loadBias codePhdrs s'.pt ↔ SharedOk codeFile codeEhdr.loadBias codePhdrs) := by
  have h := eq_zero_of_fst (r := doExecve codeFile bootSystem answers) (by decide +kernel)
  have hin : ∀ p ∈ codePhdrs, p.pType = ptLoad → (elfSegment p codeEhdr.loadBias).InUser := by decide +kernel
  exact ⟨_, h, image_iff codeFile bootSystem _ answers codeEhdr codePhdrs bootSystem_booted (by decide) rfl hin
    (List.pairwise_singleton _ _) h (by decide +kernel)⟩

/-- Code at `0x400000`, and data on the same page, at `0x400800`. -/
def pageFile : List UInt8 :=
  elfFile [⟨1, 5, 176, 0x400000, 4, 4⟩, ⟨1, 6, 180, 0x400800, 2, 2⟩] [0x0F, 0x05, 0xEB, 0xFE, 0x01, 0x02]

def pagePhdrs : List Elf64Phdr := [⟨1, 5, 176, 0x400000, 4, 4⟩, ⟨1, 6, 180, 0x400800, 2, 2⟩]

theorem pageFile_apart : (loads pagePhdrs).Pairwise fun p q => ∀ x, ¬(p.Covers 0 x ∧ q.Covers 0 x) := by
  have hl : loads pagePhdrs = pagePhdrs := rfl
  rw [hl]
  refine List.pairwise_cons.2 ⟨fun q hq x hc => ?_, List.pairwise_singleton _ _⟩
  cases List.mem_singleton.1 hq
  obtain ⟨⟨-, h1⟩, h2, -⟩ := hc
  have e1 : add64 0x400000 0 + max 4 4 = 0x400004 := by decide
  have e2 : add64 0x400800 0 = 0x400800 := by decide
  dsimp only at h1 h2
  omega

/-- **Two segments on one page**: when the data are loaded, the page of the code is mapped again, and the code is gone. -/
theorem not_imageOk_pageFile : Booted bootSystem ∧ (∃ e, elfHeaders pageFile = some (e, pagePhdrs) ∧ e.loadBias = 0) ∧
    (∀ p ∈ pagePhdrs, p.pType = ptLoad → (elfSegment p 0).InUser) ∧
    ((loads pagePhdrs).Pairwise fun p q => ∀ x, ¬(p.Covers 0 x ∧ q.Covers 0 x)) ∧
    ∃ s', doExecve pageFile bootSystem answers = (0, s') ∧ (pmmAllocPage s'.pt).1 ≠ 0 ∧ ¬ImageOk pageFile 0 pagePhdrs s'.pt := by
  have h := eq_zero_of_fst (r := doExecve pageFile bootSystem answers) (by decide +kernel)
  refine ⟨bootSystem_booted, ⟨_, rfl, rfl⟩, by decide +kernel, pageFile_apart, _, h, by decide +kernel, fun hi => ?_⟩
  obtain ⟨b, hb1, hb2⟩ := (hi ⟨1, 5, 176, 0x400000, 4, 4⟩ List.mem_cons_self).1 0 (by decide)
  have hfile : pageFile[176 + 0]? = some 0x0F := by decide +kernel
  have hbyte : userByte (doExecve pageFile bootSystem answers).2.pt (add64 0x400000 0 + 0) = some 0 := by decide +kernel
  rw [hfile] at hb1
  rw [hbyte] at hb2
  cases hb1
  exact absurd hb2 (by decide)

end Exec
end Pico
