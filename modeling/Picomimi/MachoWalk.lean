import Picomimi.Exec
/-!
# MachoWalk — the load commands in their buffer

`macho_load` with the addresses it reads through a load command, what it writes of `info->dylinker`, its steps and its calls of
`kfree`.  The commands are read from memory, so that a pointer that has left `lcbuf` reads what is there.  What a segment's
load does is a parameter: a step on a state.  The walk stays in the buffer but where `lcp + cmdsize` passes the end of the
64-bit addresses, which the kernel's own are near (`bounded_iff`).
-/
namespace Pico
namespace Macho

open Lib Exec

def lcLoadDylinker : Nat := 0xE

/-- Where the kernel is mapped: one directory of large pages. -/
def kernelBase : Nat := 0xFFFFFFFF80000000
def kernelSize : Nat := 0x40000000

/-- `n` bytes of memory. -/
def cells (m : Nat → UInt8) (a n : Nat) : List UInt8 := (List.range n).map fun i => m (a + i)

/-- The field of `n` bytes at an address. -/
def fieldAt (m : Nat → UInt8) (a n : Nat) : Nat := field (cells m a n) 0 n

/-- What the walk sets: `entry` and `segEndMax` are locals of `macho_load`, which it stores when it succeeds. -/
structure LoadInfo extends MachoInfo where
  mhVaddr : Nat
  stackSize : Nat
  dylinker : Option (List UInt8)

/-- `strncmp` with `"__TEXT"`. -/
def IsText (seg : SegmentCommand64) : Prop := seg.segname.take 7 = [0x5F, 0x5F, 0x54, 0x45, 0x58, 0x54, 0]

instance (seg : SegmentCommand64) : Decidable (IsText seg) := inferInstanceAs (Decidable (_ = _))

/-- An access: where it begins, and how many bytes it has. -/
abbrev Span := Nat × Nat

/-- One turn of the walk, or all of it. -/
structure Turn (σ : Type) where
  ret : Int
  info : LoadInfo
  state : σ
  reads : List Span              -- through the load command
  writes : List Span             -- in `info->dylinker`
  steps : Nat

section Walk

variable {σ : Type} (m : Nat → UInt8) (load : σ → Nat → SegmentCommand64 → Int × σ) (loadBias lcEnd : Nat)

def cmdAt (lcp : Nat) : Nat := fieldAt m lcp 4
def cmdsizeAt (lcp : Nat) : Nat := fieldAt m (add64 lcp 4) 4

/-- The `switch` over the commands, with `n` more to come. -/
def command (n lcp : Nat) (info : LoadInfo) (s : σ) : Turn σ :=
  let cmd := cmdAt m lcp
  let cmdsize := cmdsizeAt m lcp
  if cmd = lcSegment64 ∧ 72 ≤ cmdsize then
    let seg := readSegment64 (cells m lcp 72)
    let info := if IsText seg then { info with mhVaddr := add64 seg.vmaddr loadBias } else info
    match load s n seg with
    | (r, s) =>
      -- `segname` to `initprot`
      if r < 0 then ⟨r, info, s, [(add64 lcp 8, 56)], [], 1⟩
      else
        ⟨0, { info with segEndMax := max info.segEndMax (add64 (add64 seg.vmaddr seg.vmsize) loadBias) }, s,
          [(add64 lcp 8, 56)], [], 1⟩
  else if cmd = lcMain ∧ 24 ≤ cmdsize then
    ⟨0, { info with
        entry := add64 loadBias (fieldAt m (add64 lcp 8) 8)
        stackSize := fieldAt m (add64 lcp 16) 8
        haveEntry := true }, s, [(add64 lcp 8, 16)], [], 1⟩
  else if cmd = lcUnixthread ∧ 184 ≤ cmdsize then
    if fieldAt m (add64 lcp 8) 4 = 4 then
      ⟨0, { info with entry := add64 (fieldAt m (add64 lcp 144) 8) loadBias, haveEntry := true }, s,
        [(add64 lcp 8, 4), (add64 lcp 144, 8)], [], 1⟩
    else ⟨0, info, s, [(add64 lcp 8, 4)], [], 1⟩
  else if cmd = lcLoadDylinker ∧ 12 ≤ cmdsize then
    let off := fieldAt m (add64 lcp 8) 4
    if off < cmdsize then
      let plen := min (cmdsize - off) 255
      ⟨0, { info with dylinker := some (cells m (add64 lcp off) plen) }, s, [(add64 lcp 8, 4), (add64 lcp off, plen)],
        [(0, plen), (plen, 1)], 1⟩
    else ⟨0, info, s, [(add64 lcp 8, 4)], [], 1⟩
  else ⟨0, info, s, [], [], 1⟩

/-- The walk from `lcp`, at most `n` more commands. -/
def walk : Nat → Nat → LoadInfo → σ → Turn σ
  | 0, _, info, s => ⟨0, info, s, [], [], 0⟩
  | n + 1, lcp, info, s =>
    if lcEnd < add64 lcp 8 then ⟨0, info, s, [], [], 0⟩
    else if cmdsizeAt m lcp = 0 ∨ lcEnd < add64 lcp (cmdsizeAt m lcp) then ⟨0, info, s, [(lcp, 8)], [], 1⟩
    else
      let t := command m load loadBias n lcp info s
      if t.ret < 0 then { t with reads := (lcp, 8) :: t.reads }
      else
        let w := walk n (add64 lcp (cmdsizeAt m lcp)) t.info t.state
        { w with reads := (lcp, 8) :: t.reads ++ w.reads, writes := t.writes ++ w.writes, steps := t.steps + w.steps }

end Walk

/-- How a call of `macho_load` ends: the result, `lcbuf` if it was allocated, and how often it was freed. -/
structure Loaded (σ : Type) where
  ret : Int
  info : LoadInfo
  state : σ
  lcbuf : Option Nat
  walked : Turn σ
  frees : Nat

/-- Memory with the commands in it. -/
def withBuf (m : Nat → UInt8) (lcbuf : Nat) (data : List UInt8) (a : Nat) : UInt8 :=
  if lcbuf ≤ a ∧ a < lcbuf + data.length then data.getD (a - lcbuf) 0 else m a

def blankInfo (mhVaddr : Nat) : LoadInfo := ⟨⟨0, false, 0⟩, mhVaddr, 0, none⟩

/-- What `macho_load` takes from the header it accepts: `ncmds`, `sizeofcmds`, the slide. -/
def header (file : List UInt8) (fileBase : Nat) : Option (Nat × Nat × Nat) :=
  let mh := vfsRead file 32 fileBase
  let ncmds := field mh 16 4
  if mh.length ≠ 32 then none
  else if field mh 0 4 ≠ mhMagic64 ∨ field mh 4 4 ≠ cpuTypeX86 ∨ field mh 12 4 ≠ 2 ∨ ncmds = 0 ∨ 512 < ncmds then none
  else some (ncmds, field mh 20 4, if Mm.has (field mh 24 4) 0x200000 then 0x100000000 else 0)

section Load

variable {σ : Type} (m : Nat → UInt8) (kmalloc : Nat → Option Nat) (load : Nat → σ → Nat → SegmentCommand64 → Int × σ)
  (file : List UInt8) (fileBase : Nat) (s : σ)

/-- `macho_load`; `kmalloc` is the address it returns for a size. -/
def machoLoad : Loaded σ :=
  let idle : Turn σ := ⟨0, blankInfo 0, s, [], [], 0⟩
  match header file fileBase with
  | none => ⟨-enoexec, blankInfo 0, s, none, idle, 0⟩
  | some (ncmds, sizeofcmds, loadBias) =>
    match kmalloc sizeofcmds with
    | none => ⟨-enomem, blankInfo 0, s, none, idle, 0⟩
    | some lcbuf =>
      let data := vfsRead file sizeofcmds (fileBase + 32)
      if data.length ≠ sizeofcmds then ⟨-enoexec, blankInfo 0, s, some lcbuf, idle, 1⟩
      else
        let w := walk (withBuf m lcbuf data) (load loadBias) loadBias (lcbuf + sizeofcmds) ncmds lcbuf (blankInfo loadBias) s
        if w.ret < 0 then ⟨w.ret, w.info, w.state, some lcbuf, w, 1⟩
        else if w.info.haveEntry = false ∨ w.info.segEndMax = 0 then ⟨-enoexec, w.info, w.state, some lcbuf, w, 1⟩
        else ⟨0, w.info, w.state, some lcbuf, w, 1⟩

end Load

/-! ## The law -/

/-- The access lies in the buffer. -/
def Inside (lcbuf lcEnd : Nat) (x : Span) : Prop := lcbuf ≤ x.1 ∧ x.1 + x.2 ≤ lcEnd

/-- What is read through the load commands is in the buffer, what is written of `info->dylinker` in the array, and there are
at most 512 steps. -/
structure Bounded {σ : Type} (lcbuf lcEnd : Nat) (w : Turn σ) : Prop where
  reads : ∀ x ∈ w.reads, Inside lcbuf lcEnd x
  writes : ∀ x ∈ w.writes, x.1 + x.2 ≤ 256
  steps : w.steps ≤ 512

/-- **The walk is bounded, and the buffer freed once** where it was allocated. -/
def Safe {σ : Type} (size : Nat) (l : Loaded σ) : Prop :=
  match l.lcbuf with
  | none => l.frees = 0
  | some lcbuf => Bounded lcbuf (lcbuf + size) l.walked ∧ l.frees = 1

section Fits

variable {σ : Type} (m : Nat → UInt8) (load : σ → Nat → SegmentCommand64 → Int × σ) (loadBias lcbuf lcEnd : Nat)

/-- **A command with a size past the end of the buffer does not pass the end of the addresses**, or it is the last one, or
a segment that does not load, and what is read of it is in the buffer. -/
def Fits : Nat → Nat → LoadInfo → σ → Prop
  | 0, _, _, _ => True
  | n + 1, lcp, info, s =>
    let t := command m load loadBias n lcp info s
    if lcEnd < lcp + 8 ∨ cmdsizeAt m lcp = 0 then True
    else if lcp + cmdsizeAt m lcp ≤ lcEnd then t.ret < 0 ∨ Fits n (lcp + cmdsizeAt m lcp) t.info t.state
    else lcp + cmdsizeAt m lcp < word64 ∨ (∀ x ∈ t.reads, Inside lcbuf lcEnd x) ∧ (t.ret < 0 ∨ n = 0)

end Fits

section Bounds

variable {σ : Type} {m : Nat → UInt8} {load : σ → Nat → SegmentCommand64 → Int × σ} {loadBias lcbuf lcEnd lcp n : Nat}
  {info : LoadInfo} {s : σ}

theorem field_lt (buf : List UInt8) (off n : Nat) : field buf off n < 256 ^ n := by
  unfold field
  have hlen : ((buf.drop off).take n).length ≤ n := List.length_take_le _ _
  generalize (buf.drop off).take n = l at hlen
  induction l generalizing n with
  | nil => exact Nat.pow_pos (by decide)
  | cons b l ih =>
    cases n with
    | zero => cases hlen
    | succ n =>
      have hl := ih n (Nat.le_of_succ_le_succ hlen)
      have hb := b.toNat_lt
      rw [List.foldr_cons, Nat.pow_succ]
      omega

theorem add64_wrap {a b : Nat} (h : word64 ≤ a + b) (hlt : a + b < 2 * word64) : add64 a b = a + b - word64 := by
  rw [add64, Nat.mod_eq_sub_mod h, Nat.mod_eq_of_lt (by omega)]

theorem cmdsizeAt_lt (m : Nat → UInt8) (lcp : Nat) : cmdsizeAt m lcp < word32 := field_lt _ _ _

/-- **What is read of a command is in it.** -/
theorem command_reads (hlt : lcp + cmdsizeAt m lcp < word64) :
    ∀ x ∈ (command m load loadBias n lcp info s).reads, Inside lcp (lcp + cmdsizeAt m lcp) x := by
  -- a field at `off` of a command that has room for it
  have hfield : ∀ off k, off + k ≤ cmdsizeAt m lcp → Inside lcp (lcp + cmdsizeAt m lcp) (add64 lcp off, k) := by
    intro off k hk
    refine ⟨?_, ?_⟩
    · rw [add64_of_lt (by omega)]
      exact Nat.le_add_right _ _
    · show add64 lcp off + k ≤ _
      rw [add64_of_lt (by omega)]
      omega
  unfold command
  dsimp only
  split
  · rename_i h
    split
    · exact List.forall_mem_singleton.2 (hfield 8 56 (by omega))
    · exact List.forall_mem_singleton.2 (hfield 8 56 (by omega))
  · split
    · rename_i h
      exact List.forall_mem_singleton.2 (hfield 8 16 (by omega))
    · split
      · rename_i h
        split
        · exact List.forall_mem_cons.2 ⟨hfield 8 4 (by omega), List.forall_mem_singleton.2 (hfield 144 8 (by omega))⟩
        · exact List.forall_mem_singleton.2 (hfield 8 4 (by omega))
      · split
        · rename_i h
          split
          · exact List.forall_mem_cons.2 ⟨hfield 8 4 (by omega), List.forall_mem_singleton.2 (hfield _ _ (by omega))⟩
          · exact List.forall_mem_singleton.2 (hfield 8 4 (by omega))
        · exact List.forall_mem_nil _

/-- **What a command writes is in the array**, and it is one step. -/
theorem command_writes (m : Nat → UInt8) (load : σ → Nat → SegmentCommand64 → Int × σ) (loadBias n lcp : Nat) (info : LoadInfo)
    (s : σ) : (∀ x ∈ (command m load loadBias n lcp info s).writes, x.1 + x.2 ≤ 256) ∧
      (command m load loadBias n lcp info s).steps = 1 := by
  unfold command
  dsimp only
  split
  · split <;> exact ⟨List.forall_mem_nil _, rfl⟩
  · split
    · exact ⟨List.forall_mem_nil _, rfl⟩
    · split
      · split <;> exact ⟨List.forall_mem_nil _, rfl⟩
      · split
        · split
          · refine ⟨List.forall_mem_cons.2 ⟨?_, List.forall_mem_singleton.2 ?_⟩, rfl⟩
            · show 0 + min _ 255 ≤ 256
              omega
            · show min _ 255 + 1 ≤ 256
              omega
          · exact ⟨List.forall_mem_nil _, rfl⟩
        · exact ⟨List.forall_mem_nil _, rfl⟩

/-- **A step or no step**: what the walk does at `lcp`. -/
theorem walk_succ (m : Nat → UInt8) (load : σ → Nat → SegmentCommand64 → Int × σ) (loadBias lcEnd n lcp : Nat)
    (info : LoadInfo) (s : σ) :
    (lcEnd < add64 lcp 8 ∧ walk m load loadBias lcEnd (n + 1) lcp info s = ⟨0, info, s, [], [], 0⟩) ∨
    (add64 lcp 8 ≤ lcEnd ∧ (cmdsizeAt m lcp = 0 ∨ lcEnd < add64 lcp (cmdsizeAt m lcp)) ∧
      walk m load loadBias lcEnd (n + 1) lcp info s = ⟨0, info, s, [(lcp, 8)], [], 1⟩) ∨
    (add64 lcp 8 ≤ lcEnd ∧ cmdsizeAt m lcp ≠ 0 ∧ add64 lcp (cmdsizeAt m lcp) ≤ lcEnd ∧
      walk m load loadBias lcEnd (n + 1) lcp info s =
        let t := command m load loadBias n lcp info s
        if t.ret < 0 then { t with reads := (lcp, 8) :: t.reads }
        else
          let w := walk m load loadBias lcEnd n (add64 lcp (cmdsizeAt m lcp)) t.info t.state
          { w with reads := (lcp, 8) :: t.reads ++ w.reads, writes := t.writes ++ w.writes, steps := t.steps + w.steps }) := by
  conv =>
    enter [1, 2, 1]
    unfold walk
  conv =>
    enter [2, 1, 2, 2, 1]
    unfold walk
  conv =>
    enter [2, 2, 2, 2, 2, 1]
    unfold walk
  by_cases h1 : lcEnd < add64 lcp 8
  · exact .inl ⟨h1, if_pos h1⟩
  have h1' := Nat.le_of_not_lt h1
  simp only [if_neg h1]
  by_cases h2 : cmdsizeAt m lcp = 0 ∨ lcEnd < add64 lcp (cmdsizeAt m lcp)
  · exact .inr (.inl ⟨h1', h2, if_pos h2⟩)
  obtain ⟨h0, h3⟩ := not_or.1 h2
  exact .inr (.inr ⟨h1', h0, Nat.le_of_not_lt h3, if_neg h2⟩)

/-- **The writes and the steps of a walk.** -/
theorem walk_writes (m : Nat → UInt8) (load : σ → Nat → SegmentCommand64 → Int × σ) (loadBias lcEnd : Nat) : ∀ (n lcp : Nat) (info : LoadInfo) (s : σ),
    (∀ x ∈ (walk m load loadBias lcEnd n lcp info s).writes, x.1 + x.2 ≤ 256) ∧
      (walk m load loadBias lcEnd n lcp info s).steps ≤ n := by
  intro n
  induction n with
  | zero => exact fun _ _ _ => ⟨List.forall_mem_nil _, Nat.le_refl _⟩
  | succ n ih =>
    intro lcp info s
    obtain ⟨hw, hs⟩ := command_writes m load loadBias n lcp info s
    rcases walk_succ m load loadBias lcEnd n lcp info s with
      ⟨-, h⟩ | ⟨-, -, h⟩ | ⟨-, -, -, h⟩
    · rw [h]
      exact ⟨List.forall_mem_nil _, Nat.zero_le _⟩
    · rw [h]
      exact ⟨List.forall_mem_nil _, Nat.succ_le_succ (Nat.zero_le _)⟩
    · rw [h]
      dsimp only
      split
      · exact ⟨hw, hs.trans_le (Nat.succ_le_succ (Nat.zero_le _))⟩
      · obtain ⟨hw', hs'⟩ := ih (add64 lcp (cmdsizeAt m lcp)) (command m load loadBias n lcp info s).info
          (command m load loadBias n lcp info s).state
        refine ⟨fun x hx => (List.mem_append.1 hx).elim (hw x) (hw' x), ?_⟩
        show (command m load loadBias n lcp info s).steps + _ ≤ n + 1
        rw [hs]
        omega

/-- A step reads the size of its command. -/
theorem mem_walk_reads (h : add64 lcp 8 ≤ lcEnd) : (lcp, 8) ∈ (walk m load loadBias lcEnd (n + 1) lcp info s).reads := by
  rcases walk_succ m load loadBias lcEnd n lcp info s with
    ⟨h1, -⟩ | ⟨-, -, h2⟩ | ⟨-, -, -, h3⟩
  · exact absurd h (Nat.not_le_of_lt h1)
  · rw [h2]
    exact List.mem_cons_self
  · rw [h3]
    dsimp only
    split
    · exact List.mem_cons_self
    · exact List.mem_cons_self

/-- **The reads of a walk are in the buffer exactly when its commands fit.** -/
theorem walk_reads_iff (m : Nat → UInt8) (load : σ → Nat → SegmentCommand64 → Int × σ) (loadBias : Nat)
    (hbase : word32 + 8 ≤ lcbuf) (hend : lcEnd + 8 < word64) : ∀ (n lcp : Nat) (info : LoadInfo) (s : σ),
    lcbuf ≤ lcp → lcp ≤ lcEnd → ((∀ x ∈ (walk m load loadBias lcEnd n lcp info s).reads, Inside lcbuf lcEnd x) ↔
      Fits m load loadBias lcbuf lcEnd n lcp info s) := by
  intro n
  induction n with
  | zero => exact fun _ _ _ _ _ => iff_of_true (List.forall_mem_nil _) trivial
  | succ n ih =>
    intro lcp info s hlo hhi
    have h32 : word32 = 4294967296 := rfl
    have h64 : word64 = 18446744073709551616 := rfl
    have h8 : add64 lcp 8 = lcp + 8 := add64_of_lt (by omega)
    have hc := cmdsizeAt_lt m lcp
    unfold Fits
    dsimp only
    rcases walk_succ m load loadBias lcEnd n lcp info s with
      ⟨h1, h⟩ | ⟨h1, h2, h⟩ | ⟨h1, h0, h3, h⟩
    · rw [h, if_pos (.inl (h8 ▸ h1))]
      exact iff_of_true (List.forall_mem_nil _) trivial
    · rw [h8] at h1
      rw [h]
      refine iff_of_true (List.forall_mem_singleton.2 ⟨hlo, h1⟩) ?_
      split
      · trivial
      · rename_i hno
        have hne : cmdsizeAt m lcp ≠ 0 := fun h => hno (.inr h)
        have h2 := h2.resolve_left hne
        by_cases hw : lcp + cmdsizeAt m lcp < word64
        · rw [add64_of_lt hw] at h2
          rw [if_neg (Nat.not_le_of_lt h2)]
          exact .inl hw
        · -- past the end of the addresses the pointer is below the buffer, so not past its end
          rw [add64_wrap (by omega) (by omega)] at h2
          omega
    · rw [h8] at h1
      rw [h, if_neg (not_or.2 ⟨Nat.not_lt_of_le h1, h0⟩)]
      dsimp only
      by_cases hin : lcp + cmdsizeAt m lcp ≤ lcEnd
      · have hadd : add64 lcp (cmdsizeAt m lcp) = lcp + cmdsizeAt m lcp := add64_of_lt (by omega)
        have hcmd : ∀ x ∈ (command m load loadBias n lcp info s).reads, Inside lcbuf lcEnd x := fun x hx =>
          have hx := command_reads (m := m) (by omega) x hx
          ⟨Nat.le_trans hlo hx.1, Nat.le_trans hx.2 hin⟩
        rw [if_pos hin, hadd]
        split
        · rename_i hr
          exact iff_of_true (List.forall_mem_cons.2 ⟨⟨hlo, h1⟩, hcmd⟩) (.inl hr)
        · rename_i hr
          rw [or_iff_right hr, ← ih _ _ _ (by omega) hin]
          simp only [List.cons_append, List.forall_mem_cons, List.forall_mem_append]
          exact ⟨fun hx => hx.2.2, fun hx => ⟨⟨hlo, h1⟩, hcmd, hx⟩⟩
      · have hwrap : ¬ lcp + cmdsizeAt m lcp < word64 := by
          intro hlt
          rw [add64_of_lt hlt] at h3
          exact hin h3
        have hlow : add64 lcp (cmdsizeAt m lcp) < word32 := by
          rw [add64_wrap (by omega) (by omega)]
          omega
        rw [if_neg hin, or_iff_right hwrap]
        split
        · rename_i hr
          exact ⟨fun hx => ⟨(List.forall_mem_cons.1 hx).2, .inl hr⟩, fun hx => List.forall_mem_cons.2 ⟨⟨hlo, h1⟩, hx.1⟩⟩
        · rename_i hr
          rw [or_iff_right hr]
          cases n with
          | zero =>
            simp only [walk, List.append_nil, List.forall_mem_cons]
            exact ⟨fun hx => ⟨hx.2, trivial⟩, fun hx => ⟨⟨hlo, h1⟩, hx.1⟩⟩
          | succ k =>
            -- the next command is read where the pointer went
            refine iff_of_false (fun hx => ?_) fun hx => absurd hx.2 (Nat.succ_ne_zero k)
            have hadd8 : add64 (add64 lcp (cmdsizeAt m lcp)) 8 ≤ lcEnd := by
              rw [add64_of_lt (by omega)]
              omega
            have hmem := hx _ (List.mem_append_right _ (mem_walk_reads hadd8))
            exact absurd hmem.1 (by dsimp only; omega)

end Bounds

/-- The buffer is in the kernel's memory. -/
def InKernel (a size : Nat) : Prop := kernelBase ≤ a ∧ a + size ≤ kernelBase + kernelSize

/-- **No command of the file passes the end of the addresses**, where they are read into `lcbuf`. -/
def FileFits {σ : Type} (m : Nat → UInt8) (kmalloc : Nat → Option Nat)
    (load : Nat → σ → Nat → SegmentCommand64 → Int × σ) (file : List UInt8) (fileBase : Nat) (s : σ) : Prop :=
  ∀ ncmds size loadBias lcbuf, header file fileBase = some (ncmds, size, loadBias) → kmalloc size = some lcbuf →
    (vfsRead file size (fileBase + 32)).length = size →
    Fits (withBuf m lcbuf (vfsRead file size (fileBase + 32))) (load loadBias) loadBias lcbuf (lcbuf + size) ncmds lcbuf
      (blankInfo loadBias) s

theorem header_ncmds {file : List UInt8} {fileBase ncmds size loadBias : Nat}
    (h : header file fileBase = some (ncmds, size, loadBias)) : ncmds ≤ 512 := by
  unfold header at h
  dsimp only at h
  split at h
  · cases h
  · split at h
    · cases h
    · rename_i hno
      cases h
      omega

/-- **`macho_load` is safe on a file exactly when the file's commands fit.** -/
theorem machoLoad_safe_iff {σ : Type} (m : Nat → UInt8) (kmalloc : Nat → Option Nat)
    (hk : ∀ size lcbuf, kmalloc size = some lcbuf → InKernel lcbuf size)
    (load : Nat → σ → Nat → SegmentCommand64 → Int × σ) (file : List UInt8) (fileBase : Nat) (s : σ) :
    (∀ ncmds size loadBias, header file fileBase = some (ncmds, size, loadBias) →
      Safe size (machoLoad m kmalloc load file fileBase s)) ↔ FileFits m kmalloc load file fileBase s := by
  have h32 : word32 = 4294967296 := rfl
  have h64 : word64 = 18446744073709551616 := rfl
  have hsafe : ∀ {ncmds size loadBias}, header file fileBase = some (ncmds, size, loadBias) →
      (Safe size (machoLoad m kmalloc load file fileBase s) ↔ ∀ lcbuf, kmalloc size = some lcbuf →
        (vfsRead file size (fileBase + 32)).length = size →
        Fits (withBuf m lcbuf (vfsRead file size (fileBase + 32))) (load loadBias) loadBias lcbuf (lcbuf + size) ncmds lcbuf
          (blankInfo loadBias) s) := by
    intro ncmds size loadBias hh
    unfold machoLoad
    rw [hh]
    dsimp only
    cases ha : kmalloc size with
    | none => exact iff_of_true rfl fun _ h => by cases h
    | some lcbuf =>
      obtain ⟨hlo, hhi⟩ := hk size lcbuf ha
      unfold kernelBase kernelSize at *
      dsimp only
      by_cases hd : (vfsRead file size (fileBase + 32)).length = size
      · rw [if_neg (not_not_intro hd)]
        have hwalk := walk_reads_iff (withBuf m lcbuf (vfsRead file size (fileBase + 32)))
          (load loadBias) loadBias (show word32 + 8 ≤ lcbuf by omega) (show lcbuf + size + 8 < word64 by omega) ncmds lcbuf
          (blankInfo loadBias) s (Nat.le_refl _) (Nat.le_add_right _ _)
        obtain ⟨hw, hs⟩ := walk_writes (withBuf m lcbuf (vfsRead file size (fileBase + 32))) (load loadBias) loadBias
          (lcbuf + size) ncmds lcbuf (blankInfo loadBias) s
        generalize walk _ _ _ _ ncmds lcbuf _ s = w at hwalk hw hs
        have hiff : Bounded lcbuf (lcbuf + size) w ∧ 1 = 1 ↔ ∀ x, some lcbuf = some x →
            (vfsRead file size (fileBase + 32)).length = size → Fits (withBuf m x (vfsRead file size (fileBase + 32)))
              (load loadBias) loadBias x (x + size) ncmds x (blankInfo loadBias) s := by
          constructor
          · rintro ⟨hb, -⟩ x hx -
            cases hx
            exact hwalk.1 hb.reads
          · exact fun h => ⟨⟨hwalk.2 (h lcbuf rfl hd), hw, Nat.le_trans hs (header_ncmds hh)⟩, rfl⟩
        split
        · exact hiff
        · split
          · exact hiff
          · exact hiff
      · rw [if_pos hd]
        refine iff_of_true ⟨⟨List.forall_mem_nil _, List.forall_mem_nil _, Nat.zero_le _⟩, rfl⟩ fun x _ h => absurd h hd
  constructor
  · exact fun h ncmds size loadBias lcbuf hh => (hsafe hh).1 (h _ _ _ hh) lcbuf
  · exact fun h ncmds size loadBias hh => (hsafe hh).2 fun lcbuf => h _ _ _ lcbuf hh

/-! ## Two files -/

/-- An executable of load commands alone. -/
def machoFile (ncmds : UInt8) (flags : List UInt8) (cmds : List UInt8) : List UInt8 :=
  [0xCF, 0xFA, 0xED, 0xFE, 7, 0, 0, 1, 3, 0, 0, 0, 2, 0, 0, 0, ncmds, 0, 0, 0, UInt8.ofNat cmds.length, 0, 0, 0] ++ flags ++
    [0, 0, 0, 0] ++ cmds

/-- One `LC_UUID` with nothing in it. -/
def uuidFile : List UInt8 := machoFile 1 [0, 0, 0, 0] [0x1B, 0, 0, 0, 8, 0, 0, 0]

/-- Two commands; the first has the size 2^31. -/
def wrapFile : List UInt8 := machoFile 2 [0, 0, 0, 0] [0x1B, 0, 0, 0, 0, 0, 0, 0x80, 0x1B, 0, 0, 0, 8, 0, 0, 0]

def smallKmalloc (size : Nat) : Option Nat := if size ≤ 64 then some 0xFFFFFFFF82000000 else none

theorem inKernel_smallKmalloc (size lcbuf : Nat) (h : smallKmalloc size = some lcbuf) : InKernel lcbuf size := by
  unfold smallKmalloc at h
  split at h
  · cases h
    unfold InKernel kernelBase kernelSize
    omega
  · cases h

/-- A segment that is not loaded. -/
def noLoad (_ : Nat) (s : Unit) (_ : Nat) (_ : SegmentCommand64) : Int × Unit := (0, s)

theorem machoLoad_safe_iff_uuid : Safe 8 (machoLoad (fun _ => 0) smallKmalloc noLoad uuidFile 0 ()) := by
  have hheader : header uuidFile 0 = some (1, 8, 0) := by decide +kernel
  refine (machoLoad_safe_iff _ smallKmalloc inKernel_smallKmalloc noLoad uuidFile 0 ()).2 ?_ 1 8 0 hheader
  intro ncmds size loadBias lcbuf hh ha _
  rw [hheader] at hh
  cases hh
  cases ha
  unfold Fits
  dsimp only
  rw [if_neg (by decide +kernel), if_pos (by decide +kernel)]
  exact .inr trivial

/-- The second command is read at an address of the user's half. -/
theorem not_machoLoad_safe : header wrapFile 0 = some (2, 16, 0) ∧
    (0x2000000, 8) ∈ (machoLoad (fun _ => 0) smallKmalloc noLoad wrapFile 0 ()).walked.reads ∧
    ¬ Safe 16 (machoLoad (fun _ => 0) smallKmalloc noLoad wrapFile 0 ()) := by
  have hmem : (0x2000000, 8) ∈ (machoLoad (fun _ => 0) smallKmalloc noLoad wrapFile 0 ()).walked.reads := by decide +kernel
  have hbuf : (machoLoad (fun _ => 0) smallKmalloc noLoad wrapFile 0 ()).lcbuf = some 0xFFFFFFFF82000000 := by decide +kernel
  refine ⟨by decide +kernel, hmem, fun h => ?_⟩
  unfold Safe at h
  rw [hbuf] at h
  exact absurd (h.1.reads _ hmem).1 (by decide)

end Macho
end Pico
