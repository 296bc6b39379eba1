import Picomimi.FileSizeRun
import Picomimi.RamfsRun
/-!
# RamfsBounds — what `ramfs_read` and `ramfs_write` touch

The end of a transfer is a sum of two words, and the capacity of a buffer that grows is its double; neither is checked, and a
position may be 2^63 - 1 and a count 2^64 - 1.  The calls are those of `FileSize`, with `pread64`, the files `ramfs_create_blob`
lays over a buffer of its own, and a heap that its other clients may leave in any state.  `bounded_iff` says which runs keep
every transfer inside the buffer.
-/
namespace Pico
namespace RamfsBounds

open Lib Vfs FileSize
open Ramfs (RamfsInode ramfsRead ramfsWrite growBuffer newCap gfpKernel)
open Slab (kmalloc blockFor heapSize kmalloc_fst)

def fmodeRead : Nat := 1
def oWronly : Nat := 1

/-- `sys_pread64`, through `vfs_read`. -/
def sysPread (w : World) (fd count : Nat) (offset : Int) : Except Int (List UInt8) :=
  if offset < 0 then .error (-einval)
  else
    match w.files[fd]? with
    | none => .error (-FileSize.ebadf)
    | some f =>
      if ¬isRamfsFile f.file then .error (-einval)
      else if f.file.fMode &&& fmodeRead = 0 then .error (-FileSize.ebadf)
      else .ok (ramfsRead w.heap.heap (w.view f.file.fInode) count offset.toNat).1

/-- `ramfs_create_blob`: the file is made, laid over the blob, and closed. -/
def ramfsCreateBlob (w : World) (path : List Char) (data size mode : Nat) : World :=
  match filpOpen w.fs path (oWronly ||| oCreat ||| oTrunc) mode with
  | (.error _, s) => { w with fs := s }
  | (.ok f, s) =>
    let w := { w with fs := s }
    if (w.fs.inodes f.fInode).iPrivate = .ramfs then
      { w.setISize f.fInode size with ri := Function.update w.ri f.fInode ⟨some data, size, size⟩ }
    else w

inductive Op where
  | call (a : FileSize.Op)
  | pread (fd count : Nat) (offset : Int)
  | blob (path : List Char) (data size mode : Nat)
  | others (h : Slab.Heap)                              -- the other clients of the heap

def Op.run (w : World) : Op → World
  | .call a => a.run w
  | .pread _ _ _ => w
  | .blob path data size mode => ramfsCreateBlob w path data size mode
  | .others h => { w with heap := h }

/-- The 64-bit arguments. -/
def Op.args : Op → List Nat
  | .call (.write _ buf) => [buf.length]
  | .call (.pwrite _ buf offset) => [buf.length, offset.toNat]
  | .call (.read _ count) => [count]
  | .call (.lseek _ offset _) => [offset]
  | .pread _ count offset => [count, offset.toNat]
  | .blob _ _ size _ => [size]
  | _ => []

def machine : Machine World Op where
  init := FileSize.machine.init
  step w a := if ∀ n ∈ a.args, n < word64 then some (a.run w) else none

/-! ## The bounds -/

/-- The inode, the count and the position, when the call comes to a `ramfs_read`. -/
def readOf (w : World) : Op → Option (Nat × Nat × Nat)
  | .call (.read fd count) =>
    (w.files[fd]?).bind fun f => if isRamfsFile f.file then some (f.file.fInode, count, f.fPos) else none
  | .pread fd count offset =>
    if offset < 0 then none
    else (w.files[fd]?).bind fun f =>
      if isRamfsFile f.file ∧ f.file.fMode &&& fmodeRead ≠ 0 then some (f.file.fInode, count, offset.toNat) else none
  | _ => none

/-- The inode, the bytes and the position, when the call comes to a `ramfs_write`. -/
def writeOf (w : World) : Op → Option (Nat × List UInt8 × Nat)
  | .call (.write fd buf) =>
    (w.files[fd]?).bind fun f => if isRamfsFile f.file then some (f.file.fInode, buf, f.fPos) else none
  | .call (.pwrite fd buf offset) =>
    if offset < 0 then none
    else (w.files[fd]?).bind fun f =>
      if isRamfsFile f.file ∧ f.file.fMode &&& fmodeWrite ≠ 0 then some (f.file.fInode, buf, offset.toNat) else none
  | _ => none

/-- **A read copies what the file has of the count**, from the position on, and nothing behind it. -/
def ReadBounded (m : Lib.Mem) (inode : Ramfs.Inode) (count pos : Nat) : Prop :=
  ∀ r ∈ inode.iPrivate, (ramfsRead m inode count pos).1 = m.bytes (r.data.getD 0 + pos) (min count (r.size - pos))

/-- **A write fails and leaves the file**, or its end and the double of it are no more than the sums say, the bytes go into
the capacity, and a new buffer is one the heap can hold. -/
def WriteBounded (h : Slab.Heap) (inode : Ramfs.Inode) (buf : List UInt8) (pos : Nat) : Prop :=
  match ramfsWrite h inode buf pos with
  | (.error _, h', inode', pos') => h' = h ∧ inode' = inode ∧ pos' = pos
  | (.ok n, _, inode', _) =>
    n = buf.length ∧ pos + buf.length < word64 ∧ ∀ r ∈ inode.iPrivate, ∃ r' ∈ inode'.iPrivate,
      pos + buf.length ≤ r'.capacity ∧
      (r.capacity < pos + buf.length → r'.capacity = max 4096 (2 * (pos + buf.length)) ∧ r'.capacity ≤ heapSize)

/-- **Every transfer of the step is inside its buffer**, and every file after it. -/
structure Bounded (w : World) (a : Op) : Prop where
  read : ∀ x ∈ readOf w a, ReadBounded w.heap.heap (w.view x.1) x.2.1 x.2.2
  write : ∀ x ∈ writeOf w a, WriteBounded w.heap (w.view x.1) x.2.1 x.2.2
  size : ∀ i, ((a.run w).ri i).size ≤ ((a.run w).ri i).capacity

/-- The end of the read does not wrap, or there is nothing to read. -/
def ReadFits (r : RamfsInode) (count pos : Nat) : Prop := r.size ≤ pos ∨ pos + count < word64

/-- The end of the write does not wrap, and, where the buffer has to grow, its double is no more than the heap; or there is no
memory. -/
def WriteFits (h : Slab.Heap) (r : RamfsInode) (count pos : Nat) : Prop :=
  if r.capacity < add64 pos count then
    blockFor h (newCap (add64 pos count)) = none ∨ pos + count < word64 ∧ max 4096 (2 * (pos + count)) ≤ heapSize
  else pos + count < word64

/-- **The transfers of the step fit.** -/
structure Fits (w : World) (a : Op) : Prop where
  read : ∀ x ∈ readOf w a, ∀ r ∈ (w.view x.1).iPrivate, ReadFits r x.2.1 x.2.2
  write : ∀ x ∈ writeOf w a, ∀ r ∈ (w.view x.1).iPrivate, WriteFits w.heap r x.2.1.length x.2.2

instance (r : RamfsInode) (count pos : Nat) : Decidable (ReadFits r count pos) := inferInstanceAs (Decidable (_ ∨ _))

instance (h : Slab.Heap) (r : RamfsInode) (count pos : Nat) : Decidable (WriteFits h r count pos) :=
  inferInstanceAs (Decidable (if r.capacity < add64 pos count then _ else _))

instance (w : World) (a : Op) : Decidable (Fits w a) :=
  decidable_of_iff ((∀ x ∈ readOf w a, ∀ r ∈ (w.view x.1).iPrivate, ReadFits r x.2.1 x.2.2) ∧
      ∀ x ∈ writeOf w a, ∀ r ∈ (w.view x.1).iPrivate, WriteFits w.heap r x.2.1.length x.2.2)
    ⟨fun h => ⟨h.1, h.2⟩, fun h => ⟨h.read, h.write⟩⟩

/-- A record as the calls keep it. -/
structure Good (r : RamfsInode) : Prop where
  size : r.size ≤ r.capacity
  word : r.size < word64
  data : r.data = none → r.capacity = 0

variable {w : World} {r : RamfsInode} {inode : Ramfs.Inode} {h : Slab.Heap} {buf : List UInt8} {pos count fin : Nat} {a : Op}

/-! ## Reads -/

/-- **A read of a good file is bounded exactly when it fits.** -/
theorem readBounded_iff (m : Lib.Mem) (hr : inode.iPrivate = some r) (hg : Good r) (hc : count < word64) :
    ReadBounded m inode count pos ↔ ReadFits r count pos := by
  have hmem : ReadBounded m inode count pos ↔
      (ramfsRead m inode count pos).1 = m.bytes (r.data.getD 0 + pos) (min count (r.size - pos)) := by
    unfold ReadBounded
    rw [hr]
    exact ⟨fun hall => hall r rfl, fun heq _ hr' => Option.some.inj hr' ▸ heq⟩
  rw [hmem]
  by_cases hend : r.size ≤ pos
  · have hzero : min count (r.size - pos) = 0 := by omega
    rw [Ramfs.ramfsRead_of_size_le hr hend, hzero]
    exact iff_of_true rfl (.inl hend)
  · cases hd : r.data with
    | none =>
      have hcap := hg.data hd
      have hsize := hg.size
      omega
    | some data =>
      rw [Ramfs.ramfsRead_of_lt_size hr hd hend, Option.getD_some]
      have hword := hg.word
      by_cases hfit : pos + count < word64
      · refine iff_of_true ?_ (.inr hfit)
        have hcount : (if r.size < add64 pos count then r.size - pos else count) = min count (r.size - pos) := by
          rw [add64_of_lt hfit]
          split <;> omega
        rw [hcount]
      · -- the end has wrapped to before the position, and the count is not cut
        refine iff_of_false (fun heq => ?_) (by unfold ReadFits; omega)
        have hwrap : add64 pos count = pos + count - word64 := by
          have hsum : pos + count = pos + count - word64 + word64 := by omega
          rw [add64, hsum, Nat.add_mod_right, Nat.mod_eq_of_lt (by omega)]
          omega
        have hlen := congrArg List.length heq
        rw [hwrap, if_neg (by omega), Mem.bytes_length, Mem.bytes_length] at hlen
        omega

/-! ## Writes -/

theorem newCap_eq (fin : Nat) : newCap fin = max 4096 (fin * 2 % word64) := by
  unfold newCap
  dsimp only
  split <;> omega

/-- A request that is refused leaves the heap. -/
theorem kmalloc_none {size flags : Nat} (hb : blockFor h size = none) : kmalloc h size flags = (none, h) := by
  have hfst := kmalloc_fst h size flags
  rw [hb] at hfst
  unfold kmalloc at hfst ⊢
  by_cases h0 : size = 0
  · rw [if_pos h0]
  · rw [if_neg h0] at hfst ⊢
    dsimp only at hfst ⊢
    split
    · rename_i off hoff
      rw [hoff] at hfst
      cases hfst
    · rename_i hoff
      rw [hoff] at hfst
      unfold Slab.slabBump at hfst ⊢
      dsimp only at hfst ⊢
      by_cases hfull : heapSize < add64 h.heapBump (add64 Slab.slabHdrSz (alignUp size 16))
      · rw [if_pos hfull]
      · rw [if_neg hfull] at hfst
        cases hfst

theorem growBuffer_of_none (hcap : r.capacity < fin) (hb : blockFor h (newCap fin) = none) :
    growBuffer h r fin = (none, h) := by
  unfold growBuffer
  rw [if_pos hcap, kmalloc_none hb]

theorem growBuffer_of_some {p : Nat} (hcap : r.capacity < fin) (hb : blockFor h (newCap fin) = some p) :
    ∃ h', growBuffer h r fin = (some { r with data := some p, capacity := newCap fin }, h') := by
  unfold growBuffer
  rw [if_pos hcap]
  have hfst := kmalloc_fst h (newCap fin) gfpKernel
  rw [hb] at hfst
  cases hk : kmalloc h (newCap fin) gfpKernel with
  | mk o h' =>
    rw [hk] at hfst
    dsimp only at hfst
    rw [hfst]
    exact ⟨_, rfl⟩

theorem ramfsWrite_of_none (hr : inode.iPrivate = some r) {h' : Slab.Heap}
    (hg : growBuffer h r (add64 pos buf.length) = (none, h')) :
    ramfsWrite h inode buf pos = (.error (-Ramfs.enomem), h', inode, pos) := by
  unfold ramfsWrite
  simp only [hr, hg]

/-- A write that has its room. -/
theorem ramfsWrite_of_some (buf : List UInt8) (hr : inode.iPrivate = some r) {r' : RamfsInode} {h' : Slab.Heap}
    (hg : growBuffer h r (add64 pos buf.length) = (some r', h')) :
    ∃ h₁ inode', ramfsWrite h inode buf pos = (.ok buf.length, h₁, inode', add64 pos buf.length) ∧
      inode'.iPrivate = some { r' with size := max r'.size (add64 pos buf.length) } := by
  unfold ramfsWrite
  simp only [hr, hg]
  by_cases hsize : r'.size < add64 pos buf.length
  · rw [if_pos hsize, Nat.max_eq_right (Nat.le_of_lt hsize)]
    exact ⟨_, _, rfl, rfl⟩
  · rw [if_neg hsize, Nat.max_eq_left (Nat.le_of_not_lt hsize)]
    exact ⟨_, _, rfl, rfl⟩

/-- What the bounds of a write with its room come to. -/
theorem writeBounded_of_some (hr : inode.iPrivate = some r) {r' : RamfsInode} {h' : Slab.Heap}
    (hg : growBuffer h r (add64 pos buf.length) = (some r', h')) :
    WriteBounded h inode buf pos ↔ pos + buf.length < word64 ∧ pos + buf.length ≤ r'.capacity ∧
      (r.capacity < pos + buf.length → r'.capacity = max 4096 (2 * (pos + buf.length)) ∧ r'.capacity ≤ heapSize) := by
  obtain ⟨h₁, inode', hw, hpriv⟩ := ramfsWrite_of_some buf hr hg
  unfold WriteBounded
  rw [hw, hr]
  dsimp only
  rw [hpriv]
  constructor
  · rintro ⟨-, hlt, hall⟩
    obtain ⟨r₁, hr₁, hroom⟩ := hall r rfl
    cases hr₁
    exact ⟨hlt, hroom⟩
  · rintro ⟨hlt, hroom⟩
    refine ⟨rfl, hlt, fun r₁ hr₁ => ⟨_, rfl, ?_⟩⟩
    cases hr₁
    exact hroom

/-- **A write is bounded exactly when it fits.** -/
theorem writeBounded_iff (hr : inode.iPrivate = some r) : WriteBounded h inode buf pos ↔ WriteFits h r buf.length pos := by
  have hheap : heapSize < word64 := by decide
  unfold WriteFits
  by_cases hcap : r.capacity < add64 pos buf.length
  · rw [if_pos hcap]
    cases hb : blockFor h (newCap (add64 pos buf.length)) with
    | none =>
      refine iff_of_true ?_ (.inl rfl)
      unfold WriteBounded
      rw [ramfsWrite_of_none hr (growBuffer_of_none hcap hb)]
      exact ⟨rfl, rfl, rfl⟩
    | some p =>
      obtain ⟨h', hgrow⟩ := growBuffer_of_some hcap hb
      rw [writeBounded_of_some hr hgrow, or_iff_right (Option.some_ne_none p)]
      refine and_congr_right fun hlt => ?_
      rw [add64_of_lt hlt] at hcap ⊢
      dsimp only
      rw [newCap_eq]
      constructor
      · rintro ⟨-, hnew⟩
        obtain ⟨heq, hle⟩ := hnew hcap
        omega
      · intro hle
        rw [Nat.mod_eq_of_lt (by omega)]
        omega
  · rw [if_neg hcap]
    have hgrow : growBuffer h r (add64 pos buf.length) = (some r, h) := if_neg hcap
    rw [writeBounded_of_some hr hgrow]
    refine ⟨fun hb => hb.1, fun hlt => ?_⟩
    rw [add64_of_lt hlt] at hcap
    exact ⟨hlt, Nat.le_of_not_lt hcap, fun hc => absurd hc hcap⟩

/-- **A write that fits leaves a good file.** -/
theorem Good.write (hg : Good r) (buf : List UInt8) (hr : inode.iPrivate = some r) (hf : WriteFits h r buf.length pos) :
    ∃ r', (ramfsWrite h inode buf pos).2.2.1.iPrivate = some r' ∧ Good r' := by
  unfold WriteFits at hf
  by_cases hcap : r.capacity < add64 pos buf.length
  · rw [if_pos hcap] at hf
    cases hb : blockFor h (newCap (add64 pos buf.length)) with
    | none =>
      rw [ramfsWrite_of_none hr (growBuffer_of_none hcap hb)]
      exact ⟨r, hr, hg⟩
    | some p =>
      rw [hb] at hf
      obtain ⟨hlt, hmax⟩ := hf.resolve_left (Option.some_ne_none p)
      obtain ⟨h', hgrow⟩ := growBuffer_of_some hcap hb
      obtain ⟨h₁, inode', hw, hpriv⟩ := ramfsWrite_of_some buf hr hgrow
      have hheap : heapSize < word64 := by decide
      have hsize := hg.size
      have hword := hg.word
      rw [hw]
      refine ⟨_, hpriv, ?_, ?_, nofun⟩
      · dsimp only
        rw [add64_of_lt hlt] at hcap ⊢
        rw [newCap_eq, Nat.mod_eq_of_lt (by omega)]
        omega
      · exact Nat.max_lt.2 ⟨hword, add64_lt _ _⟩
  · rw [if_neg hcap] at hf
    have hgrow : growBuffer h r (add64 pos buf.length) = (some r, h) := if_neg hcap
    obtain ⟨h₁, inode', hw, hpriv⟩ := ramfsWrite_of_some buf hr hgrow
    rw [hw]
    exact ⟨_, hpriv, Nat.max_le.2 ⟨hg.size, Nat.le_of_not_lt hcap⟩, Nat.max_lt.2 ⟨hg.word, add64_lt _ _⟩, hg.data⟩

/-! ## Runs -/

def AllGood (w : World) : Prop := ∀ i, Good (w.ri i)

theorem view_iPrivate {i : Nat} (hr : (w.view i).iPrivate = some r) : r = w.ri i := by
  unfold World.view at hr
  dsimp only at hr
  split at hr
  · exact (Option.some.inj hr).symm
  · cases hr

theorem AllGood.view (hg : AllGood w) {i : Nat} (hr : (w.view i).iPrivate = some r) : Good r := by
  rw [view_iPrivate hr]
  exact hg i

theorem AllGood.put (hg : AllGood w) {i : Nat} {v : Ramfs.Inode} (hv : ∀ r ∈ v.iPrivate, Good r) : AllGood (w.put i v) := by
  unfold World.put
  cases hp : v.iPrivate with
  | none => exact hg
  | some r =>
    intro j
    by_cases hj : j = i
    · subst hj
      dsimp only
      rw [Function.update_self]
      exact hv r hp
    · dsimp only
      rw [Function.update_of_ne hj]
      exact hg j

theorem AllGood.fileWrite (hg : AllGood w) {f : File}
    (hf : ∀ r ∈ (w.view f.fInode).iPrivate, WriteFits w.heap r buf.length pos) : AllGood (fileWrite w f buf pos).2.1 := by
  have hput : AllGood (w.put f.fInode (ramfsWrite w.heap (w.view f.fInode) buf pos).2.2.1) := by
    refine hg.put fun r' hr' => ?_
    cases hv : (w.view f.fInode).iPrivate with
    | none =>
      rw [ramfsWrite_none w.heap hv, hv] at hr'
      cases hr'
    | some r =>
      obtain ⟨r₁, hr₁, hgood⟩ := (hg.view hv).write buf hv (hf r hv)
      rw [hr₁] at hr'
      cases hr'
      exact hgood
  exact hput

theorem AllGood.createBlob (hg : AllGood w) {path : List Char} {data size mode : Nat} (hs : size < word64) :
    AllGood (ramfsCreateBlob w path data size mode) := by
  unfold ramfsCreateBlob
  split
  · exact hg
  · rename_i f t _
    dsimp only
    split
    · intro j
      by_cases hj : j = f.fInode
      · subst hj
        dsimp only
        rw [Function.update_self]
        exact ⟨Nat.le_refl size, hs, nofun⟩
      · dsimp only
        rw [Function.update_of_ne hj]
        exact hg j
    · exact hg

/-- The calls that write no file leave the records. -/
theorem ri_of_no_write {a : FileSize.Op} (hw : ∀ fd buf, a ≠ .write fd buf) (hp : ∀ fd buf offset, a ≠ .pwrite fd buf offset) :
    (a.run w).ri = w.ri := by
  cases a with
  | call c =>
    cases c with
    | openAt path flags mode =>
      simp only [FileSize.Op.run, FileSize.fsCall, sysOpen]
      split <;> rfl
    | _ => rfl
  | write fd buf => exact absurd rfl (hw fd buf)
  | pwrite fd buf offset => exact absurd rfl (hp fd buf offset)
  | read fd count =>
    simp only [FileSize.Op.run, sysRead]
    split
    · rfl
    · split <;> rfl
  | lseek fd offset whence =>
    simp only [FileSize.Op.run, sysLseek]
    split
    · rfl
    · split <;> rfl
  | truncate path length =>
    simp only [FileSize.Op.run, sysTruncate]
    split
    · rfl
    · split <;> rfl
  | ftruncate fd length =>
    simp only [FileSize.Op.run, sysFtruncate]
    split
    · rfl
    · split <;> rfl

/-- **A step that fits keeps every file good.** -/
theorem AllGood.run (hg : AllGood w) (hargs : ∀ n ∈ a.args, n < word64) (hf : Fits w a) : AllGood (a.run w) := by
  cases a with
  | call a =>
    by_cases hw : ∃ fd buf, a = .write fd buf
    · obtain ⟨fd, buf, rfl⟩ := hw
      simp only [Op.run, FileSize.Op.run, sysWrite]
      cases hfd : w.files[fd]? with
      | none => exact hg
      | some f =>
        by_cases hop : isRamfsFile f.file = true
        · dsimp only
          rw [if_pos hop]
          refine hg.fileWrite fun r hr => hf.write (f.file.fInode, buf, f.fPos) ?_ r hr
          simp only [writeOf, hfd, Option.bind_some, if_pos hop, Option.mem_def]
        · dsimp only
          rw [if_neg hop]
          exact hg
    by_cases hp : ∃ fd buf offset, a = .pwrite fd buf offset
    · obtain ⟨fd, buf, offset, rfl⟩ := hp
      simp only [Op.run, FileSize.Op.run, sysPwrite]
      by_cases hneg : offset < 0
      · rw [if_pos hneg]
        exact hg
      rw [if_neg hneg]
      cases hfd : w.files[fd]? with
      | none => exact hg
      | some f =>
        dsimp only
        by_cases hop : isRamfsFile f.file = true
        · rw [if_neg (not_not_intro hop)]
          by_cases hmode : f.file.fMode &&& fmodeWrite = 0
          · rw [if_pos hmode]
            exact hg
          · rw [if_neg hmode]
            refine hg.fileWrite fun r hr => hf.write (f.file.fInode, buf, offset.toNat) ?_ r hr
            simp only [writeOf, if_neg hneg, hfd, Option.bind_some, Option.mem_def]
            exact if_pos ⟨hop, hmode⟩
        · rw [if_pos hop]
          exact hg
    · intro i
      have hsame : (a.run w).ri = w.ri :=
        ri_of_no_write (fun fd buf he => hw ⟨fd, buf, he⟩) fun fd buf offset he => hp ⟨fd, buf, offset, he⟩
      show Good ((a.run w).ri i)
      rw [hsame]
      exact hg i
  | pread fd count offset => exact hg
  | blob path data size mode => exact hg.createBlob (hargs size (List.mem_singleton.2 rfl))
  | others h => exact hg

/-- The counts of the reads are words. -/
theorem count_lt_of_readOf (hargs : ∀ n ∈ a.args, n < word64) {x : Nat × Nat × Nat} (hx : readOf w a = some x) :
    x.2.1 < word64 := by
  unfold readOf at hx
  split at hx
  · obtain ⟨f, -, hf⟩ := Option.bind_eq_some_iff.1 hx
    split at hf
    · cases hf
      exact hargs _ (List.mem_singleton.2 rfl)
    · cases hf
  · split at hx
    · cases hx
    · obtain ⟨f, -, hf⟩ := Option.bind_eq_some_iff.1 hx
      split at hf
      · cases hf
        exact hargs _ List.mem_cons_self
      · cases hf
  · cases hx

/-- **A step is bounded exactly when its transfers fit.** -/
theorem AllGood.bounded_iff_fits (hg : AllGood w) (hargs : ∀ n ∈ a.args, n < word64) : Bounded w a ↔ Fits w a := by
  constructor
  · intro hb
    refine ⟨fun x hx r hr => ?_, fun x hx r hr => ?_⟩
    · exact (readBounded_iff _ hr (hg.view hr) (count_lt_of_readOf hargs hx)).1 (hb.read x hx)
    · exact (writeBounded_iff hr).1 (hb.write x hx)
  · intro hf
    refine ⟨fun x hx => ?_, fun x hx => ?_, fun i => (hg.run hargs hf i).size⟩
    · cases hv : (w.view x.1).iPrivate with
      | none =>
        intro r hr
        rw [hv] at hr
        cases hr
      | some r => exact (readBounded_iff _ hv (hg.view hv) (count_lt_of_readOf hargs hx)).2 (hf.read x hx r hv)
    · cases hv : (w.view x.1).iPrivate with
      | none =>
        unfold WriteBounded ramfsWrite
        rw [hv]
        exact ⟨rfl, rfl, rfl⟩
      | some r => exact (writeBounded_iff hv).2 (hf.write x hx r hv)

theorem step_eq (hargs : ∀ n ∈ a.args, n < word64) : machine.step w a = some (a.run w) := if_pos hargs

theorem of_step {u : World} (h : machine.step w a = some u) : (∀ n ∈ a.args, n < word64) ∧ a.run w = u := by
  by_cases hargs : ∀ n ∈ a.args, n < word64
  · rw [step_eq hargs] at h
    exact ⟨hargs, Option.some.inj h⟩
  · have hnone : machine.step w a = none := if_neg hargs
    rw [hnone] at h
    cases h

/-- **A run keeps every transfer inside its buffer, and every size below its capacity, exactly when each transfer fits.** -/
theorem bounded_iff (l : List Op) (w u : World) (hw : machine.init w) :
    machine.RunOk Bounded w l u ↔ machine.RunOk Fits w l u := by
  obtain ⟨as, h, rfl⟩ := hw
  refine machine.runOk_iff_step (I := AllGood) (fun v a t hg ht => hg.bounded_iff_fits (of_step ht).1)
    (fun v a t hg hok ht => ?_) l _ u fun i => ⟨Nat.le_refl 0, Nat.zero_lt_succ _, fun _ => rfl⟩
  obtain ⟨hargs, rfl⟩ := of_step ht
  exact hg.run hargs hok

/-- A write that does not fit is not bounded. -/
theorem not_bounded_of_write {i : Nat} (hx : writeOf w a = some (i, buf, pos)) (hr : (w.view i).iPrivate = some r)
    (hno : ¬WriteFits w.heap r buf.length pos) : ¬Bounded w a :=
  fun hb => hno ((writeBounded_iff hr).1 (hb.write _ hx))

/-! ## A write at the end of the positions -/

/-- A new file, open. -/
def newFile : World := Op.run (bootWorld [] ⟨fun _ => 0, 0, 0, 0⟩) (.call (.call (.openAt ['/', 'f'] (oCreat ||| 1) 0x1A4)))

/-- **One byte at the largest position `lseek` gives**: the double of the end wraps to 0, and the byte goes 2^63 - 1 bytes
behind a buffer of 4096. -/
theorem not_bounded : (∃ w l, machine.init w ∧ machine.run w l = some newFile) ∧
    ¬Bounded newFile (.call (.pwrite 0 [1] 0x7FFFFFFFFFFFFFFF)) := by
  have hopen : machine.run (bootWorld [] ⟨fun _ => 0, 0, 0, 0⟩)
      [.call (.call (.openAt ['/', 'f'] (oCreat ||| 1) 0x1A4))] = some newFile :=
    machine.run_cons.2 ⟨newFile, step_eq fun _ hn => absurd hn List.not_mem_nil, rfl⟩
  have hinit : machine.init (bootWorld [] ⟨fun _ => 0, 0, 0, 0⟩) := ⟨[], _, rfl⟩
  have hwrite : writeOf newFile (.call (.pwrite 0 [1] 0x7FFFFFFFFFFFFFFF)) = some (1, [1], 0x7FFFFFFFFFFFFFFF) := by
    decide +kernel
  have hview : (newFile.view 1).iPrivate = some ⟨none, 0, 0⟩ := by decide +kernel
  refine ⟨⟨_, _, hinit, hopen⟩, not_bounded_of_write hwrite hview ?_⟩
  unfold WriteFits
  decide +kernel

/-- A write, a read of what is there and a read past the end. -/
def threeCalls : List Op :=
  [.call (.call (.openAt ['/', 'f'] (oCreat ||| 2) 0x1A4)), .call (.write 0 [1, 2, 3]), .pread 0 2 1,
    .pread 0 0xFFFFFFFFFFFFFFFF 3]

theorem bounded_iff_three : ∃ u, machine.RunOk Bounded (bootWorld [] ⟨fun _ => 0, 0, 0, 0⟩) threeCalls u := by
  have hrun : (machine.check Fits (bootWorld [] ⟨fun _ => 0, 0, 0, 0⟩) threeCalls).isSome = true := by decide +kernel
  obtain ⟨u, h⟩ := Option.isSome_iff_exists.1 hrun
  exact ⟨u, (bounded_iff _ _ _ ⟨[], _, rfl⟩).2 (machine.runOk_of_check h)⟩

end RamfsBounds
end Pico
