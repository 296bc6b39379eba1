import Picomimi.Ramfs
/-!
# RamfsRun — what a read of a ramfs file returns

`FileInv` ties the buffer to the writes: below the size it holds what they put there, and zero in the holes.  A write keeps it
when what it finds in its hole is clear (`FileInv.write`), which `kmalloc` does not see to: the block of a growing file keeps
the bytes of its last owner, and so does the room behind a file's end.
-/
namespace Pico
namespace Ramfs

open Lib Slab

variable {s t : State} {bs : List SlabHdr} {ri ri' : RamfsInode} {m : Mem} {ws : List (Patch UInt8)} {buf : List UInt8}
  {data pos fin size : Nat} {h h' : Heap} {live : List Client} {c : Client}

/-! ## Copies into a payload -/

/-- **A copy into a payload** leaves the blocks where they are. -/
theorem copy_inv (pos : Nat) (hi : Slab.Inv ⟨h, live⟩ bs) (hc : c ∈ live) (hlt : pos + buf.length ≤ c.req) :
    Slab.Inv ⟨{ h with heap := h.heap.copy (c.ptr + pos) buf }, live⟩ bs := by
  obtain ⟨p, b, hb, hptr, -, hreq⟩ := hi.holds c hc
  refine hi.write hb (fun x hx => hdrAt_copy_of_apart _ ?_)
  unfold slabHdrSz at *
  omega

theorem copy_nil (m : Mem) (a : Nat) : m.copy a [] = m := by
  funext x
  exact m.copy_of_apart (by simp only [List.length_nil]; omega)

/-- The buffer at `data` holds the first `size` bytes of the array, and zeros from there to `pos`. -/
structure Filled (m : Mem) (ws : List (Patch UInt8)) (data size pos : Nat) : Prop where
  below_size : ∀ k, k < size → m (data + k) = lastWritten 0 ws k
  hole : ∀ k, size ≤ k → k < pos → m (data + k) = 0

/-- **Storing a write over a clear hole** gives the bytes of the array with the write. -/
theorem Filled.copy (hf : Filled m ws data (extent ws) pos) {k : Nat} (hk : k < max (extent ws) (pos + buf.length)) :
    m.copy (data + pos) buf (data + k) = lastWritten 0 (⟨pos, buf⟩ :: ws) k := by
  by_cases hin : pos ≤ k ∧ k < pos + buf.length
  · rw [lastWritten_of_mem hin.1 hin.2]
    have hsum : data + k = data + pos + (k - pos) := by omega
    rw [hsum]
    exact m.copy_of_lt (data + pos) (by omega)
  · have hout : k < pos ∨ pos + buf.length ≤ k := by omega
    rw [lastWritten_of_apart (w := ⟨pos, buf⟩) hout, m.copy_of_apart (by omega)]
    by_cases hsize : k < extent ws
    · exact hf.below_size k hsize
    · have hpos : k < pos := by omega
      rw [hf.hole k (by omega) hpos, lastWritten_of_extent_le (by omega)]

/-! ## The invariant -/

/-- **The buffer of the file**: none as long as nothing was written, else a block it holds that has room for the file and has
its bytes. -/
def BufferInv (h : Heap) (live : List Client) (ws : List (Patch UInt8)) (ri : RamfsInode) : Prop :=
  ri.size = extent ws ∧ ri.size ≤ ri.capacity ∧ ri.capacity ≤ heapSize ∧
  match ri.data with
  | none => ri.capacity = 0
  | some data => ⟨data, ri.capacity⟩ ∈ live ∧ ∀ k, k < ri.size → h.heap (data + k) = lastWritten 0 ws k

structure FileInv (s : State) : Prop where
  slab : ∃ bs, Slab.Inv s.slab bs
  file : ∃ ri, s.inode.iPrivate = some ri ∧ BufferInv s.slab.h s.slab.live s.writes ri

theorem FileInv.init (h : machine.init s) : FileInv s := by
  obtain ⟨hslab, hinode, hwrites⟩ := h
  refine ⟨⟨[], Slab.Inv.init hslab⟩, ⟨none, 0, 0⟩, by rw [hinode]; rfl, ?_, Nat.le_refl _, Nat.zero_le _, rfl⟩
  rw [hwrites]
  rfl

/-- **The other clients do not touch the file.** -/
theorem FileInv.other (hi : FileInv s) {op : Slab.Op} {t : Slab.State} (hop : s.inode.data.all op.spares = true)
    (h : Slab.step s.slab op = some t) : FileInv { s with slab := t } := by
  obtain ⟨⟨bs, hslab⟩, ri, hri, hsize, hcap, hmax, hbuf⟩ := hi
  refine ⟨step_inv ⟨bs, hslab⟩ h, ri, hri, hsize, hcap, hmax, ?_⟩
  have hdata : s.inode.data = ri.data := by rw [Inode.data, hri]; rfl
  rw [hdata] at hop
  cases hd : ri.data with
  | none =>
    rw [hd] at hbuf
    exact hbuf
  | some data =>
    rw [hd] at hbuf hop
    obtain ⟨hmem, hbytes⟩ := hbuf
    obtain ⟨hmem', hkeep⟩ := hslab.step_keeps h hmem hop
    exact ⟨hmem', fun k hk => (hkeep k (Nat.lt_of_lt_of_le hk hcap)).trans (hbytes k hk)⟩

/-- **A buffer that grew**: the client list with the new block for the old, and the old bytes in it. -/
structure Grown (h : Heap) (live : List Client) (ws : List (Patch UInt8)) (ri : RamfsInode) (fin pos newData : Nat)
    (h' : Heap) : Prop where
  ne : some newData ≠ ri.data
  slab : ∃ bs, Slab.Inv ⟨h', (⟨newData, newCap fin⟩ :: live).filter fun c => some c.ptr ≠ ri.data⟩ bs
  filled : Filled h'.heap ws newData ri.size pos
  cap_le : newCap fin ≤ heapSize

/-- **The old bytes in the new block**: they are copied, and the old block freed, if there is one. -/
theorem grown_of_kmalloc (hi : Slab.Inv ⟨h, live⟩ bs) (hb : BufferInv h live ws ri) {newData : Nat} {h1 : Heap}
    (hk : kmalloc h (newCap fin) gfpKernel = (some newData, h1)) (hmax : newCap fin ≤ heapSize)
    (hcap : ri.capacity < fin) (hfin : fin ≤ newCap fin) (hpos : pos ≤ fin)
    (hhole : ∀ k < pos, ri.size ≤ k → h.heap (newData + k) = 0) :
    Grown h live ws ri fin pos newData (moveBuffer h1 ri newData) := by
  obtain ⟨hsize, hroom, hheap, hbuf⟩ := hb
  have hclear : ∀ k, ri.size ≤ k → k < pos → h1.heap (newData + k) = 0 := fun k h1 h2 =>
    (hi.kmalloc_bytes hmax rfl hk (by omega)).trans (hhole k h2 h1)
  obtain ⟨bs1, hi1⟩ : ∃ bs', Slab.Inv ⟨h1, ⟨newData, newCap fin⟩ :: live⟩ bs' := by
    rcases hi.kmalloc hmax gfpKernel with hn | ⟨ptr, g, bs', hs, hinv, -⟩
    · rw [hn] at hk
      cases hk
    · rw [hs] at hk
      cases hk
      exact ⟨bs', hinv⟩
  unfold moveBuffer
  cases hd : ri.data with
  | none =>
    rw [hd] at hbuf
    refine ⟨by rw [hd]; exact Option.some_ne_none _, ⟨bs1, ?_⟩, ⟨fun k hk => absurd hk ?_, hclear⟩, hmax⟩
    · rw [hd]
      simpa using hi1
    · omega
  | some data =>
    rw [hd] at hbuf
    obtain ⟨hmem, hbytes⟩ := hbuf
    have hne : newData ≠ data := fun he => by
      refine (List.nodup_cons.1 hi1.nodup).1 (List.mem_map.2 ⟨_, hmem, he.symm⟩)
    have hi2 : Slab.Inv ⟨{ h1 with heap := h1.heap.copy newData (h1.heap.bytes data ri.size) },
        ⟨newData, newCap fin⟩ :: live⟩ bs1 := by
      refine copy_inv 0 hi1 (List.mem_cons_self) ?_
      rw [Mem.bytes_length]
      show 0 + ri.size ≤ newCap fin
      omega
    have hdmem : ⟨data, ri.capacity⟩ ∈ (⟨newData, newCap fin⟩ :: live : List Client) := List.mem_cons_of_mem _ hmem
    have hkeep : ∀ k, k < newCap fin → (kfree { h1 with heap := h1.heap.copy newData (h1.heap.bytes data ri.size) }
        (some data)).heap (newData + k) = h1.heap.copy newData (h1.heap.bytes data ri.size) (newData + k) :=
      fun k hlt => hi2.kfree_keeps hdmem (List.mem_cons_self) hne hlt
    refine ⟨fun he => hne (Option.some.inj (he.trans hd)), ?_, ⟨fun k hlt => ?_, fun k hle hlt => ?_⟩, hmax⟩
    · obtain ⟨bs3, hi3, -⟩ := hi2.kfree hdmem
      rw [hd]
      exact ⟨bs3, by simpa only [ne_eq, Option.some.injEq] using hi3⟩
    · rw [hkeep k (by omega), Mem.copy_bytes_of_lt _ _ _ _ hlt, ← hbytes k hlt]
      exact hi.kmalloc_keeps hk hmem (by show k < ri.capacity; omega)
    · rw [hkeep k (by omega), Mem.copy_of_apart _ (.inr (by rw [Mem.bytes_length]; omega))]
      exact hclear k hle hlt

/-- **Growing the buffer**: there is no memory, or the buffer grew. -/
theorem growBuffer_cases (hi : Slab.Inv ⟨h, live⟩ bs) (hb : BufferInv h live ws ri) (hcap : ri.capacity < fin)
    (hsums : SumsFit h (newCap fin)) (hfin : (blockFor h (newCap fin)).isSome → fin ≤ newCap fin) (hpos : pos ≤ fin)
    (hhole : HoleClear h (blockFor h (newCap fin)) ri.size pos) :
    growBuffer h ri fin = (none, h) ∨ ∃ newData h', Grown h live ws ri fin pos newData h' ∧
      growBuffer h ri fin = (some { ri with data := some newData, capacity := newCap fin }, h') ∧ fin ≤ newCap fin := by
  unfold growBuffer
  rw [if_pos hcap]
  have hfst := kmalloc_fst h (newCap fin) gfpKernel
  by_cases hmax : newCap fin ≤ heapSize
  · rcases hi.kmalloc hmax gfpKernel with hk | ⟨newData, h1, -, hk, -⟩
    · left
      rw [hk]
    · right
      rw [hk] at hfst
      have hle : fin ≤ newCap fin := hfin (by rw [← hfst]; rfl)
      refine ⟨newData, _, grown_of_kmalloc hi hb hk hmax hcap hle hpos (hhole newData hfst.symm), ?_, hle⟩
      simp only [hk]
  · left
    rw [hi.kmalloc_large (by omega) hsums.1 hsums.2]

/-- **A write to a file with room for it.** -/
theorem FileInv.store (hi : FileInv s) (hpriv : s.inode.iPrivate = some ri) (hroom : pos + buf.length ≤ ri.capacity)
    (hhole : HoleClear s.slab.h ri.data ri.size pos) (iSize : Nat) :
    FileInv ⟨⟨{ s.slab.h with heap := s.slab.h.heap.copy (ri.data.getD 0 + pos) buf }, s.slab.live⟩,
      ⟨iSize, some { ri with size := max ri.size (pos + buf.length) }⟩, ⟨pos, buf⟩ :: s.writes⟩ := by
  obtain ⟨⟨bs, hslab⟩, ri', hri', hsize, hcap, hmax, hbuf⟩ := hi
  obtain rfl : ri' = ri := Option.some.inj (hri'.symm.trans hpriv)
  have hnew : max ri'.size (pos + buf.length) = extent (⟨pos, buf⟩ :: s.writes) := by
    rw [hsize]
    rfl
  cases hd : ri'.data with
  | none =>
    rw [hd] at hbuf
    obtain rfl : buf = [] := List.eq_nil_of_length_eq_zero (by omega)
    rw [copy_nil]
    refine ⟨⟨bs, hslab⟩, _, rfl, hnew, Nat.max_le.2 ⟨hcap, hroom⟩, hmax, ?_⟩
    exact hbuf
  | some data =>
    rw [hd] at hbuf
    obtain ⟨hmem, hbytes⟩ := hbuf
    have hfill : Filled s.slab.h.heap s.writes data (extent s.writes) pos :=
      ⟨fun k hk => hbytes k (hsize ▸ hk), fun k hle hlt => hhole data hd k hlt (hsize ▸ hle)⟩
    refine ⟨⟨bs, copy_inv pos hslab hmem hroom⟩, _, rfl, hnew, Nat.max_le.2 ⟨hcap, hroom⟩, hmax, ?_⟩
    exact ⟨hmem, fun k hk => hfill.copy (by rw [← hsize]; exact hk)⟩

theorem holders_same {before after : Inode} (h : after.data = before.data) : holders live before after = live := by
  obtain ⟨iSize, iPrivate⟩ := after
  unfold holders
  match iPrivate with
  | none => rfl
  | some ⟨none, _, _⟩ => rfl
  | some ⟨some data, _, _⟩ => exact if_pos h.symm

/-- **A write that gets its room** stores the bytes and moves the size to its end. -/
theorem write_of_room (hpriv : s.inode.iPrivate = some ri) (hlt : pos + buf.length < word64)
    (hg : growBuffer s.slab.h ri (pos + buf.length) = (some ri', h')) :
    ∃ iSize, s.write pos buf = ⟨⟨{ h' with heap := h'.heap.copy (ri'.data.getD 0 + pos) buf },
      holders s.slab.live s.inode ⟨iSize, some { ri' with size := max ri'.size (pos + buf.length) }⟩⟩,
      ⟨iSize, some { ri' with size := max ri'.size (pos + buf.length) }⟩, ⟨pos, buf⟩ :: s.writes⟩ := by
  have hend : add64 pos buf.length = pos + buf.length := add64_of_lt hlt
  simp only [State.write, ramfsWrite, hpriv, hend, hg]
  by_cases hsize : ri'.size < pos + buf.length
  · rw [if_pos hsize, Nat.max_eq_right (Nat.le_of_lt hsize)]
    exact ⟨_, rfl⟩
  · rw [if_neg hsize, Nat.max_eq_left (Nat.le_of_not_lt hsize)]
    exact ⟨s.inode.iSize, rfl⟩

theorem write_of_no_memory (hpriv : s.inode.iPrivate = some ri) (hlt : pos + buf.length < word64)
    (hg : growBuffer s.slab.h ri (pos + buf.length) = (none, s.slab.h)) : s.write pos buf = s := by
  have hend : add64 pos buf.length = pos + buf.length := add64_of_lt hlt
  simp only [State.write, ramfsWrite, hpriv, hend, hg, holders_same rfl]

/-- **A write whose hole is clear keeps the invariant.** -/
theorem FileInv.write (hi : FileInv s) (hlt : pos + buf.length < word64) (hok : WriteOk s (.write pos buf)) :
    FileInv (s.write pos buf) := by
  obtain ⟨⟨bs, hslab⟩, ri, hri, hb⟩ := id hi
  have hok' := hok ri hri
  have hdata : s.inode.data = ri.data := by rw [Inode.data, hri]; rfl
  by_cases hcap : ri.capacity < pos + buf.length
  · rw [if_pos hcap] at hok'
    obtain ⟨hsums, hfin, hhole⟩ := hok'
    rcases growBuffer_cases hslab hb hcap hsums hfin (Nat.le_add_right _ _) hhole with
      hg | ⟨newData, h', hgrown, hg, hle⟩
    · rw [write_of_no_memory hri hlt hg]
      exact hi
    · obtain ⟨iSize, hw⟩ := write_of_room hri hlt hg
      have hnew : holders s.slab.live s.inode
          ⟨iSize, some ⟨some newData, max ri.size (pos + buf.length), newCap (pos + buf.length)⟩⟩ =
          (⟨newData, newCap (pos + buf.length)⟩ :: s.slab.live).filter fun c => some c.ptr ≠ ri.data := by
        rw [← hdata]
        exact if_neg fun he => hgrown.ne (he.symm.trans hdata)
      have hmid : FileInv ⟨⟨h', (⟨newData, newCap (pos + buf.length)⟩ :: s.slab.live).filter
          fun c => some c.ptr ≠ ri.data⟩, ⟨iSize, some ⟨some newData, ri.size, newCap (pos + buf.length)⟩⟩,
          s.writes⟩ := by
        refine ⟨hgrown.slab, _, rfl, hb.1, ?_, hgrown.cap_le, List.mem_filter.2 ⟨List.mem_cons_self, ?_⟩,
          hgrown.filled.below_size⟩
        · exact Nat.le_trans hb.2.1 (by show ri.capacity ≤ newCap (pos + buf.length); omega)
        · exact decide_eq_true hgrown.ne
      rw [hw, hnew]
      refine hmid.store rfl hle ?_ iSize
      rintro p hp k hk hsize
      cases hp
      exact hgrown.filled.hole k hsize hk
  · rw [if_neg hcap] at hok'
    have hkeep : growBuffer s.slab.h ri (pos + buf.length) = (some ri, s.slab.h) := if_neg hcap
    obtain ⟨iSize, hw⟩ := write_of_room hri hlt hkeep
    have hsame : holders s.slab.live s.inode
        ⟨iSize, some { ri with size := max ri.size (pos + buf.length) }⟩ = s.slab.live := holders_same hdata.symm
    rw [hw, hsame]
    exact hi.store hri (Nat.le_of_not_lt hcap) hok' iSize

theorem FileInv.step {op : Op} (hi : FileInv s) (hok : WriteOk s op) (h : Ramfs.step s op = some t) : FileInv t := by
  cases op with
  | write pos buf =>
    have hif : (if pos + buf.length < word64 then some (s.write pos buf) else none) = some t := h
    by_cases hlt : pos + buf.length < word64
    · rw [if_pos hlt] at hif
      cases hif
      exact hi.write hlt hok
    · rw [if_neg hlt] at hif
      cases hif
  | other op =>
    have hif : (if s.inode.data.all op.spares then (Slab.step s.slab op).map fun t => { s with slab := t } else none) =
      some t := h
    by_cases hop : s.inode.data.all op.spares = true
    · rw [if_pos hop] at hif
      obtain ⟨u, hu, rfl⟩ := Option.map_eq_some_iff.1 hif
      exact hi.other hop hu
    · rw [if_neg hop] at hif
      cases hif

/-! ## Reads -/

theorem ramfsRead_of_size_le {inode : Inode} (hpriv : inode.iPrivate = some ri) {n o : Nat} (h : ri.size ≤ o) :
    (ramfsRead m inode n o).1 = [] := by
  unfold ramfsRead
  rw [hpriv]
  cases hd : ri.data with
  | none => simp only [hd]
  | some data => simp only [hd, if_pos h]

theorem ramfsRead_of_lt_size {inode : Inode} (hpriv : inode.iPrivate = some ri) (hd : ri.data = some data) {n o : Nat}
    (h : ¬ri.size ≤ o) :
    (ramfsRead m inode n o).1 = m.bytes (data + o) (if ri.size < add64 o n then ri.size - o else n) := by
  unfold ramfsRead
  rw [hpriv]
  simp only [hd, if_neg h]

/-- **A read of a file whose buffer is right** gives the array's elements, unless the end of the read wraps. -/
theorem FileInv.read_iff (hi : FileInv s) {o n : Nat} (hn : n < word64) :
    (ramfsRead s.slab.h.heap s.inode n o).1 = readBack 0 s.writes o n ↔ extent s.writes ≤ o ∨ o + n < word64 := by
  obtain ⟨-, ri, hri, hsize, hcap, hmax, hbuf⟩ := hi
  have hword : heapSize < word64 := by decide
  by_cases hend : extent s.writes ≤ o
  · rw [ramfsRead_of_size_le hri (hsize ▸ hend), readBack_of_extent_le hend]
    exact iff_of_true rfl (.inl hend)
  · cases hd : ri.data with
    | none =>
      rw [hd] at hbuf
      omega
    | some data =>
      rw [hd] at hbuf
      obtain ⟨-, hbytes⟩ := hbuf
      rw [ramfsRead_of_lt_size hri hd (hsize ▸ hend)]
      by_cases hfit : o + n < word64
      · refine iff_of_true ?_ (.inr hfit)
        have hcount : (if ri.size < add64 o n then ri.size - o else n) = min n (extent s.writes - o) := by
          rw [add64_of_lt hfit, ← hsize]
          split <;> omega
        rw [hcount]
        refine List.map_congr_left fun k hk => ?_
        have hlt := List.mem_range.1 hk
        rw [Nat.add_assoc]
        exact hbytes (o + k) (by omega)
      · -- the end wraps to before the start, so the count is not cut
        refine iff_of_false (fun he => ?_) (by omega)
        have hwrap : add64 o n = o + n - word64 := by
          have hsum : o + n = o + n - word64 + word64 := by omega
          rw [add64, hsum, Nat.add_mod_right, Nat.mod_eq_of_lt (by omega)]
          omega
        have hlen := congrArg List.length he
        rw [hwrap, if_neg (by omega), Mem.bytes_length, readBack_length] at hlen
        omega

/-- **The reads after a run of writes whose holes are clear** give what the writes put there, and zeros in the holes: a read
does so exactly when it starts past the end or its own end does not wrap. -/
theorem reads_iff (l : List Op) (s s' : State) (h0 : machine.init s) (h : machine.RunOk WriteOk s l s') (o n : Nat)
    (hn : n < word64) :
    (ramfsRead s'.slab.h.heap s'.inode n o).1 = readBack 0 s'.writes o n ↔ extent s'.writes ≤ o ∨ o + n < word64 :=
  FileInv.read_iff (machine.runOk_invariant (P := FileInv) (fun _ _ _ hi hok hs => hi.step hok hs) l s s'
    (FileInv.init h0) h) hn

/-- A new file on the heap of a kernel that has just started. -/
def newFile : State := ⟨⟨slabInit ⟨fun _ => 0, 0, 0, 0⟩, []⟩, emptyFile, []⟩

theorem init_newFile : machine.init newFile := ⟨⟨⟨_, rfl⟩, rfl⟩, rfl, rfl⟩

/-- Two writes past the end, and one over the end of the first. -/
theorem reads_iff_holes :
    let l : List Op := [.write 3 [1, 2, 3], .other (.kmalloc 64 0), .write 9 [9], .write 5 [7, 7]]
    ∃ s', machine.RunOk WriteOk newFile l s' ∧
      (ramfsRead s'.slab.h.heap s'.inode 100 2).1 = readBack 0 s'.writes 2 100 := by
  intro l
  have hrun : (machine.check WriteOk newFile l).isSome = true := by decide +kernel
  obtain ⟨s', h⟩ := Option.isSome_iff_exists.1 hrun
  have hok := machine.runOk_of_check h
  exact ⟨s', hok, (reads_iff l newFile s' init_newFile hok 2 100 (by decide)).2 (.inr (by decide))⟩

/-- A block is allocated, written and freed; the file's first write, at offset 10, gets it, and offset 0 reads what was there. -/
theorem not_reads : ¬∀ (l : List Op) (s s' : State) (o n : Nat), machine.init s → machine.run s l = some s' →
    o + n < word64 → (ramfsRead s'.slab.h.heap s'.inode n o).1 = readBack 0 s'.writes o n := by
  intro hall
  have hrun : (machine.run newFile
      [.other (.kmalloc 4096 0), .other (.write 8 0 0xFF), .other (.kfree 8), .write 10 [1]]).map
      (fun s => ((ramfsRead s.slab.h.heap s.inode 1 0).1, readBack 0 s.writes 0 1)) = some ([0xFF], [0]) := by
    decide +kernel
  obtain ⟨s', h, hread⟩ := Option.map_eq_some_iff.1 hrun
  have hsame := hall _ newFile s' 0 1 init_newFile h (by decide)
  rw [Prod.mk.injEq] at hread
  rw [hread.1, hread.2] at hsame
  exact absurd hsame (by decide)

end Ramfs
end Pico
