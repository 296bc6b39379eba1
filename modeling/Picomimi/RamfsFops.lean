import Picomimi.RamfsBounds
import Picomimi.TransferRun
/-!
# RamfsFops — `ramfs_read` and `ramfs_write` as operations of open files

One regular file of ramfs under the calls of `Transfer`, on any number of open files; the other files have operations of their
own, and what they do to the heap are steps of its other clients.  As long as every write has its room (`fits`), the file keeps
its buffer (`Held`), whatever is in the hole of a write, and `Held.write` says what a write makes of the contents.
-/
namespace Pico
namespace Transfer

open Lib
open Ramfs (RamfsInode ramfsRead ramfsWrite growBuffer newCap holders)
open RamfsBounds (WriteFits)
open Slab (Client blockFor heapSize)

/-- The file, what the other files work on, and whether every write so far had its room. -/
structure Dev (τ : Type) where
  file : Ramfs.State
  rest : τ
  fits : Bool

theorem ramfsRead_length_le (m : Mem) (inode : Ramfs.Inode) (count pos : Nat) :
    (ramfsRead m inode count pos).1.length ≤ count := by
  unfold ramfsRead
  split
  · exact Nat.zero_le _
  · split
    · exact Nat.zero_le _
    · split
      · exact Nat.zero_le _
      · dsimp only
        rw [Mem.bytes_length]
        split
        · have hle : add64 pos count ≤ pos + count := Nat.mod_le _ _
          omega
        · exact Nat.le_refl _

/-- A write is complete, or there is no file data or no memory. -/
theorem ramfsWrite_cases (h : Slab.Heap) (inode : Ramfs.Inode) (buf : List UInt8) (pos : Nat) :
    (ramfsWrite h inode buf pos).1 = .ok buf.length ∨ (ramfsWrite h inode buf pos).1 = .error (-Ramfs.eio) ∨
      (ramfsWrite h inode buf pos).1 = .error (-Ramfs.enomem) := by
  unfold ramfsWrite
  split
  · exact .inr (.inl rfl)
  · dsimp only
    split
    · exact .inr (.inr rfl)
    · exact .inl rfl

theorem ramfsWrite_ok_le {h : Slab.Heap} {inode : Ramfs.Inode} {buf : List UInt8} {pos n : Nat}
    (hr : (ramfsWrite h inode buf pos).1 = .ok n) : n ≤ buf.length := by
  rcases ramfsWrite_cases h inode buf pos with he | he | he <;> cases he.symm.trans hr
  exact Nat.le_refl _

theorem ramfsWrite_error_neg {h : Slab.Heap} {inode : Ramfs.Inode} {buf : List UInt8} {pos : Nat} {e : Int}
    (hr : (ramfsWrite h inode buf pos).1 = .error e) : e < 0 := by
  rcases ramfsWrite_cases h inode buf pos with he | he | he <;> cases he.symm.trans hr <;> decide

/-- The result of a write, as the calls take it. -/
def writeRes (h : Slab.Heap) (inode : Ramfs.Inode) (buf : List UInt8) (pos : Nat) :
    Except Errno { n : Nat // n ≤ buf.length } :=
  match hr : (ramfsWrite h inode buf pos).1 with
  | .ok n => .ok ⟨n, ramfsWrite_ok_le hr⟩
  | .error e => .error ⟨e, ramfsWrite_error_neg hr⟩

theorem ofWrite_writeRes (h : Slab.Heap) (inode : Ramfs.Inode) (buf : List UInt8) (pos : Nat) :
    ofWrite (writeRes h inode buf pos) = (ramfsWrite h inode buf pos).1 := by
  unfold writeRes
  split
  · rename_i n hr
    exact hr.symm
  · rename_i e hr
    exact hr.symm

variable {τ : Type}

/-- `ramfs_read` -/
def ramfsReadOp : ReadOp (Dev τ) := fun _ d count pos =>
  let r := ramfsRead d.file.slab.h.heap d.file.inode count pos
  (.ok ⟨r.1, ramfsRead_length_le _ _ _ _⟩, r.2, d)

/-- Every write to the file has its room. -/
def FitsAt (s : Ramfs.State) (pos : Nat) (buf : List UInt8) : Prop :=
  ∀ ri ∈ s.inode.iPrivate, WriteFits s.slab.h ri buf.length pos

instance (s : Ramfs.State) (pos : Nat) (buf : List UInt8) : Decidable (FitsAt s pos buf) :=
  inferInstanceAs (Decidable (∀ ri ∈ s.inode.iPrivate, WriteFits s.slab.h ri buf.length pos))

/-- `ramfs_write` -/
def ramfsWriteOp : WriteOp (Dev τ) := fun _ d buf pos =>
  (writeRes d.file.slab.h d.file.inode buf pos, (ramfsWrite d.file.slab.h d.file.inode buf pos).2.2.2,
    { d with file := d.file.write pos buf, fits := d.fits && decide (FitsAt d.file pos buf) })

/-- The operation of another file. -/
def liftRead (op : ReadOp τ) : ReadOp (Dev τ) := fun file d count pos =>
  let r := op file d.rest count pos
  (r.1, r.2.1, { d with rest := r.2.2 })

def liftWrite (op : WriteOp τ) : WriteOp (Dev τ) := fun file d buf pos =>
  let r := op file d.rest buf pos
  (r.1, r.2.1, { d with rest := r.2.2 })

/-- `f_op` 0 is `ramfs_file_ops`, and inode 0 the file's; the others are those of `io`. -/
def ramfsFops (io : Fops τ) : Fops (Dev τ) where
  read
    | 0 => some ramfsReadOp
    | o + 1 => (io.read o).map liftRead
  write
    | 0 => some ramfsWriteOp
    | o + 1 => (io.write o).map liftWrite
  physAddr
    | 0, _, _ => 0
    | o + 1, file, d => io.physAddr o file d.rest
  iSize d
    | 0 => d.file.inode.iSize
    | i + 1 => io.iSize d.rest i
  setISize d
    | 0, n => { d with file := { d.file with inode := { d.file.inode with iSize := n } } }
    | i + 1, n => { d with rest := io.setISize d.rest i n }

/-- What the rest of the kernel does: a step of another client of the heap, or something to the other files. -/
inductive Others (τ : Type) where
  | heap (op : Slab.Op)
  | rest (t : τ)

def others (d : Dev τ) : Others τ → Option (Dev τ)
  | .heap op => (Ramfs.step d.file (.other op)).map fun s => { d with file := s }
  | .rest t => some { d with rest := t }

/-- A new file. -/
def NewFile (d : Dev τ) : Prop := Ramfs.machine.init d.file ∧ d.fits = true

/-! ## The file keeps its buffer -/

/-- **The buffer of the file**: none, or a block it holds; the file is no longer than it. -/
structure Held (s : Ramfs.State) : Prop where
  slab : ∃ bs, Slab.Inv s.slab bs
  file : ∃ ri, s.inode.iPrivate = some ri ∧ ri.size ≤ ri.capacity ∧ ri.capacity ≤ heapSize ∧
    (ri.data = none → ri.capacity = 0) ∧ ∀ data ∈ ri.data, ⟨data, ri.capacity⟩ ∈ s.slab.live

/-- The bytes of the file. -/
def contents (s : Ramfs.State) : List UInt8 :=
  ((s.inode.iPrivate).map fun ri => s.slab.h.heap.bytes (ri.data.getD 0) ri.size).getD []

variable {s s' : Ramfs.State} {ri ri' : RamfsInode} {buf : List UInt8} {pos : Nat} {h' : Slab.Heap} {live : List Client}
  {io : Fops τ}

theorem contents_eq (hri : s.inode.iPrivate = some ri) : contents s = s.slab.h.heap.bytes (ri.data.getD 0) ri.size := by
  rw [contents, hri]
  rfl

theorem contents_length (hri : s.inode.iPrivate = some ri) : (contents s).length = ri.size := by
  rw [contents_eq hri, Mem.bytes_length]

theorem Held.init (h : Ramfs.machine.init s) : Held s := by
  obtain ⟨hslab, hinode, -⟩ := h
  refine ⟨⟨[], Slab.Inv.init hslab⟩, ⟨none, 0, 0⟩, by rw [hinode]; rfl, Nat.le_refl _, Nat.zero_le _, fun _ => rfl, ?_⟩
  exact fun data hd => nomatch hd

/-- A file that holds its buffer is one whose only write was its contents. -/
theorem Held.bufferInv (hh : Held s) (hri : s.inode.iPrivate = some ri) :
    Ramfs.BufferInv s.slab.h s.slab.live [⟨0, contents s⟩] ri := by
  obtain ⟨-, ri', hri', hsize, hmax, hnone, hsome⟩ := hh
  obtain rfl : ri' = ri := Option.some.inj (hri'.symm.trans hri)
  have hfin : extent [(⟨0, contents s⟩ : Patch UInt8)] = ri'.size := by
    simp only [extent, Patch.fin, contents_length hri, Nat.zero_add, Nat.zero_max]
  refine ⟨hfin.symm, hsize, hmax, ?_⟩
  cases hd : ri'.data with
  | none => exact hnone hd
  | some data =>
    refine ⟨hsome data hd, fun k hk => ?_⟩
    rw [lastWritten_of_mem (Nat.zero_le _) (by rw [Patch.fin, contents_length hri, Nat.zero_add]; exact hk), Nat.sub_zero]
    dsimp only
    simp [contents_eq hri, hd, Mem.bytes, List.getElem?_range hk]

/-- `ri->size`. -/
def fileSize (s : Ramfs.State) : Nat := ((s.inode.iPrivate).map RamfsInode.size).getD 0

theorem fileSize_eq (hri : s.inode.iPrivate = some ri) : fileSize s = ri.size := by
  rw [fileSize, hri]
  rfl

/-- The buffer would have to grow and there is no block for it. -/
def NoMemory (h : Slab.Heap) (ri : RamfsInode) (fin : Nat) : Prop := ri.capacity < fin ∧ blockFor h (newCap fin) = none

instance (h : Slab.Heap) (ri : RamfsInode) (fin : Nat) : Decidable (NoMemory h ri fin) := inferInstanceAs (Decidable (_ ∧ _))

/-- **The buffer a write up to `fin` goes to**, the one there or a longer one, with the bytes of the file in it. -/
structure Room (s : Ramfs.State) (ri ri' : RamfsInode) (fin : Nat) (h' : Slab.Heap) (live : List Client) : Prop where
  size : ri'.size = ri.size
  fin_le : fin ≤ ri'.capacity
  size_le : ri.size ≤ ri'.capacity
  cap_le : ri'.capacity ≤ heapSize
  slab : ∃ bs, Slab.Inv ⟨h', live⟩ bs
  no_data : ri'.data = none → ri'.capacity = 0
  mem_live : ∀ data ∈ ri'.data, ⟨data, ri'.capacity⟩ ∈ live
  bytes : h'.heap.bytes (ri'.data.getD 0) ri.size = contents s
  holders : ∀ iSize n, holders s.slab.live s.inode ⟨iSize, some { ri' with size := n }⟩ = live

theorem Held.room {n : Nat} (hh : Held s) (hri : s.inode.iPrivate = some ri) (hfit : WriteFits s.slab.h ri n pos)
    (hmem : ¬NoMemory s.slab.h ri (add64 pos n)) : pos + n < word64 ∧ ∃ ri' h' live,
      growBuffer s.slab.h ri (pos + n) = (some ri', h') ∧ Room s ri ri' (pos + n) h' live := by
  obtain ⟨⟨bs, hslab⟩, ri₀, hri₀, hsize, hmax, hnone, hsome⟩ := id hh
  obtain rfl : ri₀ = ri := Option.some.inj (hri₀.symm.trans hri)
  have hdata : s.inode.data = ri₀.data := by rw [Ramfs.Inode.data, hri]; rfl
  unfold WriteFits at hfit
  by_cases hcap : ri₀.capacity < add64 pos n
  · rw [if_pos hcap] at hfit
    obtain ⟨p, hp⟩ := Option.ne_none_iff_exists'.1 fun hb => hmem ⟨hcap, hb⟩
    rw [hp] at hfit
    obtain ⟨hlt, hdouble⟩ := hfit.resolve_left (Option.some_ne_none p)
    rw [add64_of_lt hlt] at hcap hp
    have hword : heapSize + heapSize + 31 < word64 := by decide
    have hnew : newCap (pos + n) = max 4096 (2 * (pos + n)) := by
      rw [RamfsBounds.newCap_eq, Nat.mod_eq_of_lt (by omega), Nat.mul_comm]
    have hsums : Ramfs.SumsFit s.slab.h (newCap (pos + n)) := by
      obtain ⟨-, hround⟩ := alignUp_bounds (x := newCap (pos + n)) (show 0 < 16 by decide) (by omega)
      have hbump := hslab.bump_le
      unfold Ramfs.SumsFit Slab.slabHdrSz
      omega
    obtain ⟨g, hgrow⟩ := RamfsBounds.growBuffer_of_some hcap hp
    have hhole : Ramfs.HoleClear s.slab.h (blockFor s.slab.h (newCap (pos + n))) ri₀.size ri₀.size :=
      fun _ _ k hk hle => absurd hk (Nat.not_lt.2 hle)
    rcases Ramfs.growBuffer_cases hslab (hh.bufferInv hri) hcap hsums (fun _ => by omega) (by omega) hhole with hg | ⟨newData, h', hgrown, hg, hle⟩
    · rw [hgrow] at hg
      cases hg
    · refine ⟨hlt, _, h', _, hg, rfl, hle, by dsimp only; omega, hgrown.cap_le, hgrown.slab, fun h => absurd h (Option.some_ne_none _), ?_, ?_, ?_⟩
      · rintro data hd
        cases hd
        exact List.mem_filter.2 ⟨List.mem_cons_self, decide_eq_true hgrown.ne⟩
      · rw [contents_eq hri]
        refine Mem.bytes_eq_bytes fun k hk => ?_
        obtain ⟨-, -, -, hbuf⟩ := hh.bufferInv hri
        cases hd : ri₀.data with
        | none =>
          have hzero := hnone hd
          omega
        | some data =>
          rw [hd] at hbuf
          exact (hgrown.filled.below_size k hk).trans (hbuf.2 k hk).symm
      · intro iSize m
        rw [← hdata]
        exact if_neg fun he => hgrown.ne (he.symm.trans hdata)
  · rw [if_neg hcap] at hfit
    rw [add64_of_lt hfit] at hcap
    refine ⟨hfit, ri₀, _, s.slab.live, if_neg hcap, rfl, Nat.le_of_not_lt hcap, hsize, hmax, ⟨bs, hslab⟩, hnone, hsome,
      (contents_eq hri).symm, fun iSize m => Ramfs.holders_same hdata.symm⟩

/-- There is no room for a write up to `fin`. -/
def NoRoom (s : Ramfs.State) (fin : Nat) : Prop := ∀ ri ∈ s.inode.iPrivate, NoMemory s.slab.h ri fin

instance (s : Ramfs.State) (fin : Nat) : Decidable (NoRoom s fin) :=
  inferInstanceAs (Decidable (∀ ri ∈ s.inode.iPrivate, NoMemory s.slab.h ri fin))

theorem noRoom_iff (hri : s.inode.iPrivate = some ri) {fin : Nat} : NoRoom s fin ↔ NoMemory s.slab.h ri fin :=
  ⟨fun h => h ri hri, fun h _ hr => Option.some.inj (hri.symm.trans hr) ▸ h⟩

/-- **A write that found no room** leaves the file and the position. -/
structure Refused (s : Ramfs.State) (pos : Nat) (buf : List UInt8) : Prop where
  file : s.write pos buf = s
  res : (ramfsWrite s.slab.h s.inode buf pos).1 = .error (-Ramfs.enomem)
  ppos : (ramfsWrite s.slab.h s.inode buf pos).2.2.2 = pos

/-- **A write that had its room**: the file ends at the further of the two ends, and the bytes are where they should be if there
is no hole. -/
structure Stored (s : Ramfs.State) (pos : Nat) (buf : List UInt8) : Prop where
  held : Held (s.write pos buf)
  res : (ramfsWrite s.slab.h s.inode buf pos).1 = .ok buf.length
  ppos : (ramfsWrite s.slab.h s.inode buf pos).2.2.2 = pos + buf.length
  size : fileSize (s.write pos buf) = max (fileSize s) (pos + buf.length)
  contents_write : pos ≤ fileSize s → contents (s.write pos buf) = overwrite (contents s) pos buf

/-- The bytes of a file a copy goes into. -/
theorem bytes_copy_overwrite (m : Mem) (a : Nat) (w : List UInt8) {n : Nat} (h : pos ≤ n) :
    (m.copy (a + pos) w).bytes a (max n (pos + w.length)) = overwrite (m.bytes a n) pos w := by
  have hsum : max n (pos + w.length) = pos + w.length + (n - (pos + w.length)) := by omega
  rw [hsum, Mem.bytes_add, Mem.bytes_add, Mem.bytes_copy, Mem.bytes_congr fun x _ hx => Mem.copy_of_apart m (.inl hx),
    Mem.bytes_congr (m := m) fun x hx _ => Mem.copy_of_apart m (.inr (by omega)), overwrite, Mem.take_bytes m a h,
    Mem.drop_bytes]

/-- Storing into the buffer there is room in. -/
theorem Room.stored (hr : Room s ri ri' (pos + buf.length) h' live) (hri : s.inode.iPrivate = some ri)
    (hlt : pos + buf.length < word64) (hg : growBuffer s.slab.h ri (pos + buf.length) = (some ri', h')) :
    Stored s pos buf := by
  obtain ⟨iSize, hw⟩ := Ramfs.write_of_room hri hlt hg
  rw [hr.holders] at hw
  have hend : add64 pos buf.length = pos + buf.length := add64_of_lt hlt
  have hres : (ramfsWrite s.slab.h s.inode buf pos).1 = .ok buf.length ∧
      (ramfsWrite s.slab.h s.inode buf pos).2.2.2 = pos + buf.length := by
    simp only [ramfsWrite, hri, hend, hg, and_self]
  have hpriv : (s.write pos buf).inode.iPrivate = some { ri' with size := max ri'.size (pos + buf.length) } := by rw [hw]
  obtain ⟨bs, hslab⟩ := hr.slab
  refine ⟨⟨?_, _, hpriv, ?_, hr.cap_le, hr.no_data, ?_⟩, hres.1, hres.2, ?_, fun hpos => ?_⟩
  · rw [hw]
    cases hd : ri'.data with
    | none =>
      have hcap := hr.no_data hd
      have hfin := hr.fin_le
      obtain rfl : buf = [] := List.eq_nil_of_length_eq_zero (by omega)
      rw [Ramfs.copy_nil]
      exact ⟨bs, hslab⟩
    | some data => exact ⟨bs, Ramfs.copy_inv pos hslab (hr.mem_live data hd) hr.fin_le⟩
  · exact Nat.max_le.2 ⟨hr.size ▸ hr.size_le, hr.fin_le⟩
  · rw [hw]
    exact hr.mem_live
  · rw [fileSize_eq hpriv, fileSize_eq hri, hr.size]
  · rw [fileSize_eq hri] at hpos
    rw [contents_eq hpriv, hw, ← hr.bytes]
    dsimp only
    rw [hr.size]
    exact bytes_copy_overwrite _ _ _ hpos

/-- **A write to a file that holds its buffer**, whatever is in its hole. -/
theorem Held.write (hh : Held s) (hfit : FitsAt s pos buf) :
    NoRoom s (add64 pos buf.length) ∧ Refused s pos buf ∨ ¬NoRoom s (add64 pos buf.length) ∧ Stored s pos buf := by
  obtain ⟨-, ri, hri, -⟩ := id hh
  rw [noRoom_iff hri]
  by_cases hmem : NoMemory s.slab.h ri (add64 pos buf.length)
  · have hw : ramfsWrite s.slab.h s.inode buf pos = (.error (-Ramfs.enomem), s.slab.h, s.inode, pos) :=
      RamfsBounds.ramfsWrite_of_none hri (RamfsBounds.growBuffer_of_none hmem.1 hmem.2)
    refine .inl ⟨hmem, ?_, ?_, ?_⟩
    · simp only [Ramfs.State.write, hw, Ramfs.holders_same rfl]
    · rw [hw]
    · rw [hw]
  · obtain ⟨hlt, ri', h', live, hg, hroom⟩ := hh.room hri (hfit ri hri) hmem
    exact .inr ⟨hmem, hroom.stored hri hlt hg⟩

/-! ## Any of the calls -/

/-- What the operations keep: a file whose writes all had their room holds its buffer. -/
def Kept (d : Dev τ) : Prop := d.fits = true → Held d.file

theorem Kept.read {op : ReadOp (Dev τ)} {o : Nat} (hop : (ramfsFops io).read o = some op) (file : FileT) (d : Dev τ)
    (count pos : Nat) (h : Kept d) : Kept (op file d count pos).2.2 := by
  cases o with
  | zero => cases hop; exact h
  | succ o =>
    obtain ⟨op', -, rfl⟩ := Option.map_eq_some_iff.1 hop
    exact h

theorem Kept.write {op : WriteOp (Dev τ)} {o : Nat} (hop : (ramfsFops io).write o = some op) (file : FileT) (d : Dev τ)
    (buf : List UInt8) (pos : Nat) (h : Kept d) : Kept (op file d buf pos).2.2 := by
  cases o with
  | zero =>
    cases hop
    intro hfits
    obtain ⟨hd, hfit⟩ := Bool.and_eq_true_iff.1 hfits
    rcases (h hd).write (of_decide_eq_true hfit) with ⟨-, hr⟩ | ⟨-, hst⟩
    · show Held (d.file.write pos buf)
      rw [hr.file]
      exact h hd
    · exact hst.held
  | succ o =>
    obtain ⟨op', -, rfl⟩ := Option.map_eq_some_iff.1 hop
    exact h

theorem Held.other (hh : Held s) {op : Slab.Op} (h : Ramfs.step s (.other op) = some s') : Held s' := by
  obtain ⟨⟨bs, hslab⟩, ri, hri, hsize, hmax, hnone, hsome⟩ := hh
  have hdata : s.inode.data = ri.data := by rw [Ramfs.Inode.data, hri]; rfl
  simp only [Ramfs.step] at h
  split at h
  · rename_i hop
    obtain ⟨t, ht, rfl⟩ := Option.map_eq_some_iff.1 h
    refine ⟨Slab.step_inv ⟨bs, hslab⟩ ht, ri, hri, hsize, hmax, hnone, fun data hd => ?_⟩
    rw [hdata, Option.mem_def.1 hd] at hop
    exact (hslab.step_keeps ht (hsome data hd) hop).1
  · cases h

theorem Kept.others {d d' : Dev τ} {e : Others τ} (h : Kept d) (he : others d e = some d') : Kept d' := by
  cases e with
  | heap op =>
    obtain ⟨s, hs, rfl⟩ := Option.map_eq_some_iff.1 he
    exact fun hfits => (h hfits).other hs
  | rest t =>
    cases he
    exact h

theorem Kept.setISize {d : Dev τ} (h : Kept d) (i n : Nat) : Kept ((ramfsFops io).setISize d i n) := by
  cases i with
  | zero => exact fun hfits => ⟨(h hfits).slab, (h hfits).file⟩
  | succ i => exact h

/-- No other files. -/
def noFops : Fops Unit := ⟨fun _ => none, fun _ => none, fun _ _ _ => 0, fun _ _ => 0, fun _ _ _ => ()⟩

/-- The first task, and a new file. -/
def newWorld : World (Dev Unit) :=
  ⟨⟨⟨Ramfs.newFile, (), true⟩, fun _ => ⟨none, 0, 0, 0, 0, 0⟩, Files.boot, [], [], []⟩, fun _ => none⟩

theorem newWorld_init : (machine (ramfsFops noFops) others NewFile).init newWorld :=
  ⟨Files.boot_init, fun _ => rfl, Ramfs.init_newFile, rfl⟩

end Transfer
end Pico
