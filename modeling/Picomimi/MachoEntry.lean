import Picomimi.ExecView
import Picomimi.MachoWalk
/-!
# MachoEntry — the entry point of a Mach-O executable

`LC_MAIN` gives the entry as an offset in the file.  `macho_load` adds the slide to it, and the segment with that byte is put at
its `vmaddr` plus the slide: the two agree where the segment is at the address that is its offset (`entry_iff`).
-/
namespace Pico
namespace Macho

open Lib Exec Paging AddrSpace

/-! ## The commands -/

section Commands

variable (m : Nat → UInt8)

/-- Where the commands of a file are, from the first. -/
def commandsAt : Nat → Nat → List Nat
  | 0, _ => []
  | n + 1, lcp => lcp :: commandsAt n (lcp + cmdsizeAt m lcp)

/-- So many commands lie one after another before the end. -/
def Tiles (lcEnd : Nat) : Nat → Nat → Prop
  | 0, lcp => lcp ≤ lcEnd
  | n + 1, lcp => 8 ≤ cmdsizeAt m lcp ∧ Tiles lcEnd n (lcp + cmdsizeAt m lcp)

def IsMain (lcp : Nat) : Prop := cmdAt m lcp = lcMain ∧ 24 ≤ cmdsizeAt m lcp

def IsSegment (lcp : Nat) : Prop := cmdAt m lcp = lcSegment64 ∧ 72 ≤ cmdsizeAt m lcp

/-- The command gives an entry point. -/
def SetsEntry (lcp : Nat) : Prop :=
  IsMain m lcp ∨ cmdAt m lcp = lcUnixthread ∧ 184 ≤ cmdsizeAt m lcp ∧ fieldAt m (add64 lcp 8) 4 = 4

instance (lcp : Nat) : Decidable (IsMain m lcp) := inferInstanceAs (Decidable (_ ∧ _))
instance (lcp : Nat) : Decidable (IsSegment m lcp) := inferInstanceAs (Decidable (_ ∧ _))
instance (lcp : Nat) : Decidable (SetsEntry m lcp) := inferInstanceAs (Decidable (_ ∨ _ ∧ _ ∧ _))

instance decTiles (lcEnd : Nat) : ∀ n lcp, Decidable (Tiles m lcEnd n lcp)
  | 0, _ => inferInstanceAs (Decidable (_ ≤ _))
  | n + 1, lcp =>
    have := decTiles lcEnd n (lcp + cmdsizeAt m lcp)
    inferInstanceAs (Decidable (_ ∧ _))

def entryoff (lcp : Nat) : Nat := fieldAt m (add64 lcp 8) 8

def segmentAt (lcp : Nat) : SegmentCommand64 := readSegment64 (cells m lcp 72)

/-- **A file with one entry point**, its commands in any order. -/
structure Executable (lcbuf size ncmds main : Nat) : Prop where
  tiles : Tiles m (lcbuf + size) ncmds lcbuf
  entry : main ∈ commandsAt m ncmds lcbuf ∧ IsMain m main
  only : ∀ p ∈ commandsAt m ncmds lcbuf, SetsEntry m p → p = main

end Commands

/-- **Where a segment's load puts the byte of the file** at `off`. -/
def placedAt (seg : SegmentCommand64) (loadBias off : Nat) : Nat := add64 (add64 seg.vmaddr loadBias) (off - seg.fileoff)

/-- What the program finds there, once the segment is loaded. -/
theorem placeAt_placedAt (file : List UInt8) {seg : SegmentCommand64} {loadBias fileBase off : Nat} (old : Option Nat)
    (hlo : seg.fileoff ≤ off) (hhi : off < seg.fileoff + seg.filesize) (hbase : fileBase + seg.fileoff < word64)
    (hu : (machoSegment seg loadBias fileBase).InUser) :
    (machoSegment seg loadBias fileBase).placeAt file (placedAt seg loadBias off) old =
      (file[fileBase + off]?).map UInt8.toNat := by
  have huser : userTop < word64 := by decide
  have hend : add64 seg.vmaddr loadBias + seg.filesize ≤ userTop := hu.2
  have hx : placedAt seg loadBias off = add64 seg.vmaddr loadBias + (off - seg.fileoff) := add64_of_lt (by omega)
  have hoff : (machoSegment seg loadBias fileBase).offset = fileBase + seg.fileoff := add64_of_lt hbase
  have hidx : fileBase + seg.fileoff + (add64 seg.vmaddr loadBias + (off - seg.fileoff) - add64 seg.vmaddr loadBias) =
      fileBase + off := by omega
  rw [Segment.placeAt, if_pos, hoff]
  · rw [hx]
    show (file[fileBase + seg.fileoff + (add64 seg.vmaddr loadBias + (off - seg.fileoff) - add64 seg.vmaddr loadBias)]?).map _ = _
    rw [hidx]
  · rw [hx]
    refine ⟨Nat.le_add_right _ _, ?_⟩
    show _ < add64 seg.vmaddr loadBias + seg.filesize
    omega

section Entry

variable {σ : Type} {m : Nat → UInt8} {load : σ → Nat → SegmentCommand64 → Int × σ} {loadBias lcEnd lcp n main p : Nat}
  {info : LoadInfo} {s : σ}

theorem command_main (h : IsMain m lcp) : (command m load loadBias n lcp info s).info.entry = add64 loadBias (entryoff m lcp) ∧
    (command m load loadBias n lcp info s).ret = 0 := by
  unfold command
  dsimp only
  rw [if_neg (fun hs => absurd (h.1.symm.trans hs.1) (by decide)), if_pos (show cmdAt m lcp = lcMain ∧ 24 ≤ _ from h)]
  exact ⟨rfl, rfl⟩

theorem command_other (h : ¬ SetsEntry m lcp) : (command m load loadBias n lcp info s).info.entry = info.entry := by
  unfold command
  dsimp only
  split
  · split <;> split <;> rfl
  · split
    · rename_i hm
      exact absurd (.inl hm) h
    · split
      · rename_i hu
        rw [if_neg fun hf => h (.inr ⟨hu.1, hu.2, hf⟩)]
      · split
        · split <;> rfl
        · rfl

theorem Tiles.le : ∀ {n lcp : Nat}, Tiles m lcEnd n lcp → lcp ≤ lcEnd
  | 0, _, h => h
  | _ + 1, _, h => Nat.le_trans (Nat.le_add_right _ _) h.2.le

theorem Tiles.lt_of_mem : ∀ {n lcp : Nat}, p ∈ commandsAt m n (lcp + cmdsizeAt m lcp) → 8 ≤ cmdsizeAt m lcp →
    Tiles m lcEnd n (lcp + cmdsizeAt m lcp) → lcp < p
  | 0, _, hp, _, _ => absurd hp List.not_mem_nil
  | n + 1, lcp, hp, h8, h => by
    rcases List.mem_cons.1 hp with rfl | hp
    · omega
    · have hlt := Tiles.lt_of_mem hp h.1 h.2
      omega

/-- **A walk over a file's commands that succeeds** goes through them all. -/
theorem walk_tiles (h : Tiles m lcEnd (n + 1) lcp) (hend : lcEnd + 8 < word64)
    (hr : ¬ (walk m load loadBias lcEnd (n + 1) lcp info s).ret < 0) :
    ¬ (walk m load loadBias lcEnd n (lcp + cmdsizeAt m lcp) (command m load loadBias n lcp info s).info
        (command m load loadBias n lcp info s).state).ret < 0 ∧
      (walk m load loadBias lcEnd (n + 1) lcp info s).info =
        (walk m load loadBias lcEnd n (lcp + cmdsizeAt m lcp) (command m load loadBias n lcp info s).info
          (command m load loadBias n lcp info s).state).info := by
  have h8 := h.1
  have hle := h.2.le
  have h64 : word64 = 18446744073709551616 := rfl
  have hadd8 : add64 lcp 8 = lcp + 8 := add64_of_lt (by omega)
  have hadd : add64 lcp (cmdsizeAt m lcp) = lcp + cmdsizeAt m lcp := add64_of_lt (by omega)
  rcases walk_succ m load loadBias lcEnd n lcp info s with
    ⟨h1, -⟩ | ⟨-, h2, -⟩ | ⟨-, -, -, hw⟩
  · omega
  · omega
  · rw [hw] at hr ⊢
    dsimp only at hr ⊢
    rw [hadd] at hr ⊢
    split at hr
    · rename_i hneg
      exact absurd hneg hr
    · rename_i hneg
      rw [if_neg hneg]
      exact ⟨hr, rfl⟩

theorem walk_no_entry : ∀ {n lcp : Nat} {info : LoadInfo} {s : σ}, Tiles m lcEnd n lcp → lcEnd + 8 < word64 →
    ¬ (walk m load loadBias lcEnd n lcp info s).ret < 0 → (∀ p ∈ commandsAt m n lcp, ¬ SetsEntry m p) →
      (walk m load loadBias lcEnd n lcp info s).info.entry = info.entry
  | 0, _, _, _, _, _, _, _ => rfl
  | n + 1, lcp, info, s, h, hend, hr, hno => by
    obtain ⟨hr', hinfo⟩ := walk_tiles h hend hr
    obtain ⟨hhead, htail⟩ := List.forall_mem_cons.1 hno
    rw [hinfo, walk_no_entry h.2 hend hr' htail, command_other hhead]

/-- **The entry is the slide and the offset** of the one `LC_MAIN`. -/
theorem walk_entry : ∀ {n lcp : Nat} {info : LoadInfo} {s : σ}, Tiles m lcEnd n lcp → lcEnd + 8 < word64 →
    ¬ (walk m load loadBias lcEnd n lcp info s).ret < 0 → main ∈ commandsAt m n lcp → IsMain m main →
    (∀ p ∈ commandsAt m n lcp, SetsEntry m p → p = main) →
      (walk m load loadBias lcEnd n lcp info s).info.entry = add64 loadBias (entryoff m main)
  | 0, _, _, _, _, _, _, hmem, _, _ => absurd hmem List.not_mem_nil
  | n + 1, lcp, info, s, h, hend, hr, hmem, hmain, honly => by
    obtain ⟨hr', hinfo⟩ := walk_tiles h hend hr
    obtain ⟨hhead, htail⟩ := List.forall_mem_cons.1 honly
    rw [hinfo]
    rcases List.mem_cons.1 hmem with rfl | hmem
    · rw [walk_no_entry h.2 hend hr' fun p hp hset => ?_]
      · exact (command_main hmain).1
      · exact absurd (htail p hp hset) (Nat.ne_of_gt (Tiles.lt_of_mem hp h.1 h.2))
    · exact walk_entry h.2 hend hr' hmem hmain htail

end Entry

/-- Memory once the commands of the file are in their buffer. -/
def bufMem (m : Nat → UInt8) (file : List UInt8) (fileBase size lcbuf : Nat) : Nat → UInt8 :=
  withBuf m lcbuf (vfsRead file size (fileBase + 32))

/-- A sum with the slide on either side. -/
theorem add64_slide_iff {b e v f : Nat} (hv : v < word64) (hf : f < word64) (hle : f ≤ e) :
    add64 b e = add64 (add64 v b) (e - f) ↔ v = f := by
  obtain ⟨d, rfl⟩ := Nat.exists_eq_add_of_le hle
  unfold add64 word64 at *
  rw [Nat.add_sub_cancel_left]
  omega

/-- The segments with the byte at `off` of the file have `P`. -/
def AtOffset (m : Nat → UInt8) (ncmds lcbuf off : Nat) (P : SegmentCommand64 → Prop) : Prop :=
  ∀ p ∈ commandsAt m ncmds lcbuf, IsSegment m p → (segmentAt m p).fileoff ≤ off →
    off < (segmentAt m p).fileoff + (segmentAt m p).filesize → P (segmentAt m p)

instance (m : Nat → UInt8) (ncmds lcbuf off : Nat) (P : SegmentCommand64 → Prop) [DecidablePred P] :
    Decidable (AtOffset m ncmds lcbuf off P) :=
  inferInstanceAs (Decidable (∀ p ∈ commandsAt m ncmds lcbuf, IsSegment m p → (segmentAt m p).fileoff ≤ off →
    off < (segmentAt m p).fileoff + (segmentAt m p).filesize → P (segmentAt m p)))

/-- **The entry point is where a segment puts the entry's byte exactly when the segment is at its offset.** -/
theorem entry_iff {σ : Type} {m : Nat → UInt8} {kmalloc : Nat → Option Nat}
    {load : Nat → σ → Nat → SegmentCommand64 → Int × σ} {file : List UInt8} {fileBase : Nat} {s : σ}
    {ncmds size loadBias lcbuf main : Nat} (hh : header file fileBase = some (ncmds, size, loadBias))
    (ha : kmalloc size = some lcbuf) (hk : InKernel lcbuf size)
    (hx : Executable (bufMem m file fileBase size lcbuf) lcbuf size ncmds main)
    (hok : (machoLoad m kmalloc load file fileBase s).ret = 0) :
    AtOffset (bufMem m file fileBase size lcbuf) ncmds lcbuf (entryoff (bufMem m file fileBase size lcbuf) main)
        (fun seg => (machoLoad m kmalloc load file fileBase s).info.entry =
          placedAt seg loadBias (entryoff (bufMem m file fileBase size lcbuf) main)) ↔
      AtOffset (bufMem m file fileBase size lcbuf) ncmds lcbuf (entryoff (bufMem m file fileBase size lcbuf) main)
        (fun seg => seg.vmaddr = seg.fileoff) := by
  have hentry : (machoLoad m kmalloc load file fileBase s).info.entry =
      add64 loadBias (entryoff (bufMem m file fileBase size lcbuf) main) := by
    unfold machoLoad at hok ⊢
    rw [hh] at hok ⊢
    dsimp only at hok ⊢
    rw [ha] at hok ⊢
    dsimp only at hok ⊢
    split at hok
    · cases hok
    rename_i hd
    rw [if_neg hd]
    have hend : lcbuf + size + 8 < word64 := by
      have h64 : word64 = 18446744073709551616 := rfl
      obtain ⟨-, hhi⟩ := hk
      unfold kernelBase kernelSize at hhi
      omega
    split at hok
    · rename_i hneg
      dsimp only at hok
      omega
    · rename_i hneg
      have hw := walk_entry hx.tiles hend hneg hx.entry.1 hx.entry.2 hx.only
      rw [if_neg hneg]
      split
      · exact hw
      · exact hw
  unfold AtOffset
  rw [hentry]
  refine forall₂_congr fun p _ => forall₂_congr fun _ hlo => imp_congr_right fun _ => ?_
  exact add64_slide_iff (field_lt _ _ _) (field_lt _ _ _) hlo

/-! ## Two executables -/

/-- `__TEXT` of a page at `vmaddr`, from the start of the file, and `LC_MAIN` at 0x80. -/
def textMain (vmaddr : List UInt8) : List UInt8 :=
  [0x19, 0, 0, 0, 72, 0, 0, 0] ++ [0x5F, 0x5F, 0x54, 0x45, 0x58, 0x54] ++ List.replicate 10 0 ++ vmaddr ++
    [0, 0x10, 0, 0, 0, 0, 0, 0] ++ List.replicate 8 0 ++ [0, 1, 0, 0, 0, 0, 0, 0] ++ [5, 0, 0, 0, 5, 0, 0, 0] ++
    List.replicate 8 0 ++ [0x28, 0, 0, 0x80, 24, 0, 0, 0, 0x80, 0, 0, 0, 0, 0, 0, 0] ++ List.replicate 8 0

/-- `l`, filled up to the 256 bytes of `__TEXT`. -/
def filled (l : List UInt8) : List UInt8 := l ++ List.replicate (256 - l.length) 0x90

/-- Not PIE, with `__TEXT` at 2^32, and PIE, with `__TEXT` at 0. -/
def fixedFile : List UInt8 := filled (machoFile 2 [0, 0, 0, 0] (textMain [0, 0, 0, 0, 1, 0, 0, 0]))
def pieFile : List UInt8 := filled (machoFile 2 [0, 0, 0x20, 0] (textMain (List.replicate 8 0)))

def entryKmalloc (size : Nat) : Option Nat := if size ≤ 96 then some 0xFFFFFFFF82000000 else none

/-- The new address space. -/
def entrySystem : System := switchMmTo (mmAlloc bootSystem (some 0)).2 0

/-- A segment of the file is loaded in it. -/
def loadFrom (file : List UInt8) (loadBias : Nat) (s : System) (n : Nat) (seg : SegmentCommand64) : Int × System :=
  machoLoadSegment64 file s 0 (answers.nodes n) seg loadBias 0

/-- The address of `LC_MAIN` in the buffer. -/
def mainAt : Nat := 0xFFFFFFFF82000000 + 72

theorem executable_textMain (file : List UInt8) (hfile : file = fixedFile ∨ file = pieFile) :
    Executable (bufMem (fun _ => 0) file 0 96 0xFFFFFFFF82000000) 0xFFFFFFFF82000000 96 2 mainAt := by
  rcases hfile with rfl | rfl
  · exact ⟨by decide +kernel, ⟨by decide +kernel, by decide +kernel⟩, by decide +kernel⟩
  · exact ⟨by decide +kernel, ⟨by decide +kernel, by decide +kernel⟩, by decide +kernel⟩

theorem entry_iff_pie : AtOffset (bufMem (fun _ => 0) pieFile 0 96 0xFFFFFFFF82000000) 2 0xFFFFFFFF82000000 0x80
    fun seg => (machoLoad (fun _ => 0) entryKmalloc (loadFrom pieFile) pieFile 0 entrySystem).info.entry =
      placedAt seg 0x100000000 0x80 :=
  (@entry_iff System (fun _ => 0) entryKmalloc (loadFrom pieFile) pieFile 0 entrySystem 2 96 0x100000000 0xFFFFFFFF82000000
    mainAt (by decide +kernel) rfl ⟨by decide +kernel, by decide +kernel⟩ (executable_textMain pieFile (.inr rfl))
    (by decide +kernel)).2 (by decide +kernel)

/-- The entry is 0x80, and its byte at 0x100000080. -/
theorem not_entry : Executable (bufMem (fun _ => 0) fixedFile 0 96 0xFFFFFFFF82000000) 0xFFFFFFFF82000000 96 2 mainAt ∧
    (machoLoad (fun _ => 0) entryKmalloc (loadFrom fixedFile) fixedFile 0 entrySystem).ret = 0 ∧
    (machoLoad (fun _ => 0) entryKmalloc (loadFrom fixedFile) fixedFile 0 entrySystem).info.entry = 0x80 ∧
    userByte (machoLoad (fun _ => 0) entryKmalloc (loadFrom fixedFile) fixedFile 0 entrySystem).state.pt 0x80 = none ∧
    userByte (machoLoad (fun _ => 0) entryKmalloc (loadFrom fixedFile) fixedFile 0 entrySystem).state.pt 0x100000080 =
      some 0x90 ∧
    ¬ AtOffset (bufMem (fun _ => 0) fixedFile 0 96 0xFFFFFFFF82000000) 2 0xFFFFFFFF82000000 0x80
      (fun seg => (machoLoad (fun _ => 0) entryKmalloc (loadFrom fixedFile) fixedFile 0 entrySystem).info.entry =
        placedAt seg 0 0x80) :=
  ⟨executable_textMain fixedFile (.inl rfl), by decide +kernel, by decide +kernel, by decide +kernel, by decide +kernel,
    by decide +kernel⟩

end Macho
end Pico
