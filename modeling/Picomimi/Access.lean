import Picomimi.Append
/-!
# Access — which calls look at the mode of a file

`f_mode` says what a file was opened for, and `vfs_read`, `vfs_write` and `ftruncate` look at it.  `sys_read` and `sys_write`
call the operation of the file themselves, `sys_sendfile` returns what it sent before an error, and `sys_mmap` maps a page of
zeros for a page it may not read.  `enforced_iff_runOk` says in which runs, with descriptors duplicated and inherited as the
tasks like, every call that may not fails with `EBADF`.
-/
namespace Pico
namespace Transfer

open Lib

/-- The operations of files that can be opened: `EBADF` is not among their errors. -/
structure OpenedFops (σ : Type) extends Fops σ where
  read_ne : ∀ o op, read o = some op → ∀ file dev count pos e, (op file dev count pos).1 = .error e → e.1 ≠ -ebadf
  write_ne : ∀ o op, write o = some op → ∀ file dev buf pos e, (op file dev buf pos).1 = .error e → e.1 ≠ -ebadf

namespace Access

variable {σ ε : Type}

/-- Descriptor `fd` of task `k` leads to a file that was opened `O_RDONLY`. -/
def ReadOnly (w : World σ) (k : Nat) (fd : Int) : Prop :=
  ∃ f ∈ w.sys.fget k fd, ∃ flags ∈ w.opened f, flags &&& oAccmode = 0

/-- Opened `O_WRONLY`. -/
def WriteOnly (w : World σ) (k : Nat) (fd : Int) : Prop :=
  ∃ f ∈ w.sys.fget k fd, ∃ flags ∈ w.opened f, flags &&& oAccmode = 1

instance (w : World σ) (k : Nat) (fd : Int) : Decidable (ReadOnly w k fd) :=
  inferInstanceAs (Decidable (∃ f ∈ w.sys.fget k fd, ∃ flags ∈ w.opened f, flags &&& oAccmode = 0))

instance (w : World σ) (k : Nat) (fd : Int) : Decidable (WriteOnly w k fd) :=
  inferInstanceAs (Decidable (∃ f ∈ w.sys.fget k fd, ∃ flags ∈ w.opened f, flags &&& oAccmode = 1))

/-- **The call fails**, with `EBADF` if nothing else is wrong with its arguments. -/
def Fails (valid : Prop) (ret : Int) : Prop := ret < 0 ∧ (valid → ret = -ebadf)

/-- And nothing is written. -/
def Rejected (valid : Prop) (s : Sys σ) (r : Int × Sys σ) : Prop := Fails valid r.1 ∧ r.2.dev = s.dev

/-- The count a call returns, or the error. -/
def countOf : Except Int (List UInt8) → Int
  | .error e => e
  | .ok l => l.length

def ValidIov (n : Nat) : Prop := n ≠ 0 ∧ n ≤ iovMax

def Mappable (length offset : Nat) (vaddr : Except Errno Nat) : Prop :=
  length ≠ 0 ∧ offset % pageSize = 0 ∧ vaddr.isOk = true

/-- **The law**: no call writes a file that was opened for reading, nor reads one that was opened for writing. -/
def Law (io : Fops σ) (w : World σ) : Label ε → Prop
  | .write k fd buf => ReadOnly w k fd → Rejected True w.sys (sysWrite io w.sys k fd buf)
  | .pwrite k fd buf offset => ReadOnly w k fd → Rejected (0 ≤ offset) w.sys (sysPwrite io w.sys k fd buf offset)
  | .writev k fd iov => ReadOnly w k fd → Rejected (ValidIov iov.length) w.sys (sysWritev io w.sys k fd iov)
  | .ftruncate k fd length => ReadOnly w k fd → Rejected (0 ≤ length) w.sys (sysFtruncate io w.sys k fd length)
  | .read k fd count => WriteOnly w k fd → Fails True (countOf (sysRead io w.sys k fd count).1)
  | .pread k fd count offset => WriteOnly w k fd → Fails (0 ≤ offset) (countOf (sysPread io w.sys k fd count offset).1)
  | .readv k fd iov => WriteOnly w k fd → Fails (ValidIov iov.length) (countOf (sysReadv io w.sys k fd iov).1)
  | .mmap k fd length offset vaddr mem => WriteOnly w k fd →
    Fails (Mappable length offset vaddr) (sysMmap io w.sys k fd length offset vaddr mem).1
  | .sendfile k outFd inFd offset count => ReadOnly w k outFd ∨ WriteOnly w k inFd →
    Rejected True w.sys ((sysSendfile io w.sys k outFd inFd offset count).1,
      (sysSendfile io w.sys k outFd inFd offset count).2.2)
  | _ => True

def CanRead (io : Fops σ) (w : World σ) (k : Nat) (fd : Int) : Prop :=
  ∀ f ∈ w.sys.fget k fd, (io.read (w.sys.file f).fOp).isSome = true

def CanWrite (io : Fops σ) (w : World σ) (k : Nat) (fd : Int) : Prop :=
  ∀ f ∈ w.sys.fget k fd, (io.write (w.sys.file f).fOp).isSome = true

/-- **The calls that may not are those that look**: not `read`, `write`, `sendfile` and `mmap`, and the others only for a file
that has the operation, and with some bytes to move. -/
def Looks (io : Fops σ) (w : World σ) : Label ε → Prop
  | .write k fd _ => ¬ReadOnly w k fd
  | .pwrite k fd _ offset => ReadOnly w k fd → 0 ≤ offset → CanWrite io w k fd
  | .writev k fd iov => ReadOnly w k fd → ValidIov iov.length → CanWrite io w k fd ∧ ∃ b ∈ iov, b ≠ []
  | .read k fd _ => ¬WriteOnly w k fd
  | .pread k fd _ offset => WriteOnly w k fd → 0 ≤ offset → CanRead io w k fd
  | .readv k fd iov => WriteOnly w k fd → ValidIov iov.length → CanRead io w k fd ∧ ∃ n ∈ iov, n ≠ 0
  | .mmap k fd length offset vaddr _ => Mappable length offset vaddr → ¬WriteOnly w k fd
  | .sendfile k outFd inFd _ _ => (w.sys.fget k outFd).isSome → (w.sys.fget k inFd).isSome →
    ¬ReadOnly w k outFd ∧ ¬WriteOnly w k inFd
  | _ => True

/-! ## One call -/

variable {io : Fops σ} {w w' : World σ} {k : Nat} {fd : Int} {f : Nat}

theorem ReadOnly.mode (hm : ModesSay w) (h : ReadOnly w k fd) :
    ∃ f, w.sys.fget k fd = some f ∧ (w.sys.file f).fMode &&& fmodeWrite = 0 := by
  obtain ⟨f, hf, flags, hflags, hacc⟩ := h
  refine ⟨f, hf, ?_⟩
  rw [hm f flags hflags, modeOf, hacc]
  rfl

theorem WriteOnly.mode (hm : ModesSay w) (h : WriteOnly w k fd) :
    ∃ f, w.sys.fget k fd = some f ∧ (w.sys.file f).fMode &&& fmodeRead = 0 := by
  obtain ⟨f, hf, flags, hflags, hacc⟩ := h
  refine ⟨f, hf, ?_⟩
  rw [hm f flags hflags, modeOf, hacc]
  rfl

theorem canRead_iff (hf : w.sys.fget k fd = some f) : CanRead io w k fd ↔ (io.read (w.sys.file f).fOp).isSome = true :=
  ⟨fun h => h f hf, fun h _ hg => Option.some.inj (hf.symm.trans hg) ▸ h⟩

theorem canWrite_iff (hf : w.sys.fget k fd = some f) : CanWrite io w k fd ↔ (io.write (w.sys.file f).fOp).isSome = true :=
  ⟨fun h => h f hf, fun h _ hg => Option.some.inj (hf.symm.trans hg) ▸ h⟩

theorem fails_refusal {valid : Prop} {α : Type} (op : Option α) : Fails valid (refusal op) ↔ (valid → op.isSome = true) :=
  ⟨fun h hv => (refusal_eq op).1 (h.2 hv), fun h => ⟨refusal_neg op, fun hv => (refusal_eq op).2 (h hv)⟩⟩

/-- A call with other arguments wrong. -/
theorem fails_einval {valid : Prop} (h : ¬valid) : Fails valid (-einval) := ⟨by decide, fun hv => absurd hv h⟩

theorem fails_of_nonneg {valid : Prop} {ret : Int} (h : 0 ≤ ret) : ¬Fails valid ret := fun hf => absurd hf.1 (Int.not_lt.2 h)

theorem refused_iov_iff {α : Type} (l : List α) : l = [] ∨ iovMax < l.length ↔ ¬ValidIov l.length := by
  rw [ValidIov, not_and_or, not_not, List.length_eq_zero_iff, Nat.not_le]

/-- The result of a loop over buffers that fails at the first with bytes. -/
theorem fails_loop_iff {valid some : Prop} [Decidable some] {α : Type} (hv : valid) (op : Option α) {n : Int} (hn : 0 ≤ n) :
    Fails valid (if some then refusal op else n) ↔ (valid → op.isSome = true ∧ some) := by
  by_cases hs : some
  · rw [if_pos hs, fails_refusal, and_iff_left hs]
  · rw [if_neg hs]
    exact iff_of_false (fails_of_nonneg hn) fun h => hs (h hv).2

theorem natCast_ne_ebadf (n : Nat) : (n : Int) ≠ -ebadf := by
  unfold ebadf
  omega

/-- **`sys_write` does not look.** -/
theorem sysWrite_ne (io : OpenedFops σ) (s : Sys σ) (hf : s.fget k fd = some f) (buf : List UInt8) :
    (sysWrite io.toFops s k fd buf).1 ≠ -ebadf := by
  unfold sysWrite
  rw [hf]
  dsimp only
  split
  · exact natCast_ne_ebadf _
  · cases hop : io.write (s.file f).fOp with
    | none => exact (by decide : -einval ≠ -ebadf)
    | some op =>
      have hne := io.write_ne _ op hop (s.file f) s.dev buf (s.file f).fPos
      unfold callWrite
      dsimp only
      generalize (op (s.file f) s.dev buf (s.file f).fPos).1 = res at hne
      cases res with
      | error e => exact hne e rfl
      | ok n => exact natCast_ne_ebadf _

/-- **`sys_read` does not look.** -/
theorem sysRead_ne (io : OpenedFops σ) (s : Sys σ) (hf : s.fget k fd = some f) (count : Nat) :
    countOf (sysRead io.toFops s k fd count).1 ≠ -ebadf := by
  unfold sysRead
  rw [hf]
  dsimp only
  cases hop : io.read (s.file f).fOp with
  | none => exact (by decide : -einval ≠ -ebadf)
  | some op =>
    have hne := io.read_ne _ op hop (s.file f) s.dev count (s.file f).fPos
    unfold callRead
    dsimp only
    generalize (op (s.file f) s.dev count (s.file f).fPos).1 = res at hne
    cases res with
    | error e => exact hne e rfl
    | ok l => exact natCast_ne_ebadf _

/-- **`sys_sendfile` has no error but that of a closed descriptor.** -/
theorem sysSendfile_nonneg (io : Fops σ) {outFd inFd : Int} {out inp : Nat} (s : Sys σ) (ho : s.fget k outFd = some out)
    (hi : s.fget k inFd = some inp) (offset : Option Nat) (count : Nat) :
    0 ≤ (sysSendfile io s k outFd inFd offset count).1 := by
  unfold sysSendfile
  rw [ho, hi]
  cases offset <;> exact Int.natCast_nonneg _

theorem mmapPages_ne (f : Nat) : ∀ (n offset mem : Nat) (l : List (List UInt8)) (s : Sys σ),
    (mmapPages io f n offset mem l s).1 ≠ -ebadf
  | 0, _, _, _, _ => (by decide : (0 : Int) ≠ -ebadf)
  | _ + 1, _, 0, _, _ => (by decide : -enomem ≠ -ebadf)
  | n + 1, offset, mem + 1, _, _ => mmapPages_ne f n (offset + pageSize) mem _ _

/-- **`sys_mmap` does not look.** -/
theorem sysMmap_ne {length offset : Nat} {vaddr : Except Errno Nat} (s : Sys σ) (hf : s.fget k fd = some f)
    (h : Mappable length offset vaddr) (mem : Nat) : (sysMmap io s k fd length offset vaddr mem).1 ≠ -ebadf := by
  obtain ⟨hlen, hoff, hok⟩ := h
  unfold sysMmap
  rw [if_neg hlen, if_neg (not_not.2 hoff), hf]
  cases vaddr with
  | error e => nomatch hok
  | ok v =>
    dsimp only
    split
    · exact natCast_ne_ebadf v
    · split
      · exact mmapPages_ne f _ _ _ _ _
      · exact natCast_ne_ebadf v

theorem sysMmap_neg {length offset : Nat} {vaddr : Except Errno Nat} (s : Sys σ) (h : ¬Mappable length offset vaddr)
    (mem : Nat) : (sysMmap io s k fd length offset vaddr mem).1 < 0 := by
  unfold sysMmap
  by_cases hlen : length = 0
  · rw [if_pos hlen]
    exact (by decide : -einval < 0)
  · rw [if_neg hlen]
    by_cases hoff : offset % pageSize = 0
    · rw [if_neg (not_not.2 hoff)]
      cases vaddr with
      | error e => exact e.2
      | ok v => exact absurd ⟨hlen, hoff, rfl⟩ h
    · rw [if_pos hoff]
      exact (by decide : -einval < 0)

/-! ## Runs -/

variable {env : σ → ε → Option σ} {a : Label ε}

/-- **A step obeys the law exactly when its call looks.** -/
theorem law_iff (io : OpenedFops σ) (hm : ModesSay w) : Law io.toFops w a ↔ Looks io.toFops w a := by
  cases a with
  | write k fd buf =>
    refine ⟨fun h hro => ?_, fun h hro => absurd hro h⟩
    obtain ⟨f, hf, -⟩ := hro.mode hm
    exact sysWrite_ne io w.sys hf buf ((h hro).1.2 trivial)
  | read k fd count =>
    refine ⟨fun h hwo => ?_, fun h hwo => absurd hwo h⟩
    obtain ⟨f, hf, -⟩ := hwo.mode hm
    exact sysRead_ne io w.sys hf count ((h hwo).2 trivial)
  | pwrite k fd buf offset =>
    refine forall_congr' fun hro => ?_
    obtain ⟨f, hf, hmode⟩ := hro.mode hm
    rw [canWrite_iff hf]
    unfold sysPwrite
    by_cases hoff : offset < 0
    · rw [if_pos hoff]
      exact iff_of_true ⟨fails_einval (Int.not_le.2 hoff), rfl⟩ fun h => absurd h (Int.not_le.2 hoff)
    · rw [if_neg hoff, hf]
      dsimp only
      rw [vfsWrite_refused hmode]
      exact (and_iff_left rfl).trans (fails_refusal _)
  | pread k fd count offset =>
    refine forall_congr' fun hwo => ?_
    obtain ⟨f, hf, hmode⟩ := hwo.mode hm
    rw [canRead_iff hf]
    unfold sysPread
    by_cases hoff : offset < 0
    · rw [if_pos hoff]
      exact iff_of_true (fails_einval (Int.not_le.2 hoff)) fun h => absurd h (Int.not_le.2 hoff)
    · rw [if_neg hoff, hf]
      dsimp only
      rw [vfsRead_refused hmode]
      exact fails_refusal _
  | writev k fd iov =>
    refine forall_congr' fun hro => ?_
    obtain ⟨f, hf, hmode⟩ := hro.mode hm
    rw [canWrite_iff hf]
    unfold sysWritev
    by_cases hiov : iov = [] ∨ iovMax < iov.length
    · rw [if_pos hiov]
      have hno := (refused_iov_iff iov).1 hiov
      exact iff_of_true ⟨fails_einval hno, rfl⟩ fun h => absurd h hno
    · rw [if_neg hiov, hf]
      dsimp only
      rw [writevFrom_refused hmode]
      have hok := not_not.1 (mt (refused_iov_iff iov).2 hiov)
      exact (and_iff_left rfl).trans (fails_loop_iff hok _ (Int.le_refl 0))
  | readv k fd iov =>
    refine forall_congr' fun hwo => ?_
    obtain ⟨f, hf, hmode⟩ := hwo.mode hm
    rw [canRead_iff hf]
    unfold sysReadv
    by_cases hiov : iov = [] ∨ iovMax < iov.length
    · rw [if_pos hiov]
      have hno := (refused_iov_iff iov).1 hiov
      exact iff_of_true (fails_einval hno) fun h => absurd h hno
    · rw [if_neg hiov, hf]
      dsimp only
      rw [readvFrom_refused hmode, apply_ite countOf]
      have hok := not_not.1 (mt (refused_iov_iff iov).2 hiov)
      exact fails_loop_iff hok _ (Int.le_refl 0)
  | ftruncate k fd length =>
    refine iff_of_true (fun hro => ?_) trivial
    obtain ⟨f, hf, hmode⟩ := hro.mode hm
    unfold sysFtruncate
    by_cases hlen : length < 0
    · rw [if_pos hlen]
      exact ⟨fails_einval (Int.not_le.2 hlen), rfl⟩
    · rw [if_neg hlen, hf]
      dsimp only
      rw [if_pos hmode]
      exact ⟨⟨(by decide : -ebadf < 0), fun _ => rfl⟩, rfl⟩
  | mmap k fd length offset vaddr mem =>
    constructor
    · rintro h hok hwo
      obtain ⟨f, hf, -⟩ := hwo.mode hm
      exact sysMmap_ne w.sys hf hok mem ((h hwo).2 hok)
    · intro h hwo
      have hno : ¬Mappable length offset vaddr := fun hok => h hok hwo
      exact ⟨sysMmap_neg w.sys hno mem, fun hok => absurd hok hno⟩
  | sendfile k outFd inFd offset count =>
    constructor
    · intro h ho hi
      obtain ⟨out, ho⟩ := Option.isSome_iff_exists.1 ho
      obtain ⟨inp, hi⟩ := Option.isSome_iff_exists.1 hi
      have hret := sysSendfile_nonneg io.toFops w.sys ho hi offset count
      exact ⟨fun hro => fails_of_nonneg hret (h (.inl hro)).1, fun hwo => fails_of_nonneg hret (h (.inr hwo)).1⟩
    · intro h hor
      unfold sysSendfile
      cases hi : w.sys.fget k inFd with
      | none => exact ⟨⟨(by decide : -ebadf < 0), fun _ => rfl⟩, rfl⟩
      | some inp =>
        cases ho : w.sys.fget k outFd with
        | none => exact ⟨⟨(by decide : -ebadf < 0), fun _ => rfl⟩, rfl⟩
        | some out =>
          obtain ⟨hro, hwo⟩ := h (by rw [ho]; rfl) (by rw [hi]; rfl)
          exact (hor.elim hro hwo).elim
  | _ => exact Iff.rfl

theorem modesSay_of_init {start : σ → Prop} (h : (machine io env start).init w) : ModesSay w := by
  intro f flags hf
  rw [h.2.1 f] at hf
  nomatch hf

/-- **In every run, every call that may not fails with `EBADF` exactly when every call that may not is one that looks.** -/
theorem enforced_iff_runOk (io : OpenedFops σ) (env : σ → ε → Option σ) (start : σ → Prop) (l : List (Label ε))
    (w w' : World σ) (h0 : (machine io.toFops env start).init w) :
    (machine io.toFops env start).RunOk (Law io.toFops) w l w' ↔
      (machine io.toFops env start).RunOk (Looks io.toFops) w l w' :=
  Machine.runOk_iff _ (I := ModesSay) (fun _ _ hm => law_iff io hm) (fun _ _ _ hm _ hs => hm.step hs) l w w'
    (modesSay_of_init h0)

/-- The operations of a file of ramfs, where no other files can be opened. -/
def ramfsOpened : OpenedFops (Dev Unit) where
  toFops := ramfsFops noFops
  read_ne o op h file d count pos e he := by
    cases o with
    | zero => cases h; nomatch he
    | succ o => nomatch h
  write_ne o op h file d buf pos e he := by
    cases o with
    | zero =>
      cases h
      have hres := ofWrite_writeRes d.file.slab.h d.file.inode buf pos
      have hw : writeRes d.file.slab.h d.file.inode buf pos = .error e := he
      rw [hw] at hres
      rcases ramfsWrite_cases d.file.slab.h d.file.inode buf pos with hc | hc | hc
      · nomatch hres.trans hc
      · rw [Except.error.inj (hres.trans hc)]
        decide
      · rw [Except.error.inj (hres.trans hc)]
        decide
    | succ o => nomatch h

instance (io : Fops σ) (w : World σ) (k : Nat) (fd : Int) : Decidable (CanRead io w k fd) :=
  inferInstanceAs (Decidable (∀ f ∈ w.sys.fget k fd, (io.read (w.sys.file f).fOp).isSome = true))

instance (io : Fops σ) (w : World σ) (k : Nat) (fd : Int) : Decidable (CanWrite io w k fd) :=
  inferInstanceAs (Decidable (∀ f ∈ w.sys.fget k fd, (io.write (w.sys.file f).fOp).isSome = true))

instance (n : Nat) : Decidable (ValidIov n) := inferInstanceAs (Decidable (_ ∧ _))

instance (length offset : Nat) (vaddr : Except Errno Nat) : Decidable (Mappable length offset vaddr) :=
  inferInstanceAs (Decidable (_ ∧ _ ∧ _))

instance (io : Fops σ) (w : World σ) : ∀ a : Label ε, Decidable (Looks io w a)
  | .write k fd _ => inferInstanceAs (Decidable ¬ReadOnly w k fd)
  | .read k fd _ => inferInstanceAs (Decidable ¬WriteOnly w k fd)
  | .pwrite k fd _ _ => inferInstanceAs (Decidable (ReadOnly w k fd → _ → CanWrite io w k fd))
  | .pread k fd _ _ => inferInstanceAs (Decidable (WriteOnly w k fd → _ → CanRead io w k fd))
  | .writev k fd iov => inferInstanceAs (Decidable (ReadOnly w k fd → ValidIov _ → CanWrite io w k fd ∧ ∃ b ∈ iov, b ≠ []))
  | .readv k fd iov => inferInstanceAs (Decidable (WriteOnly w k fd → ValidIov _ → CanRead io w k fd ∧ ∃ n ∈ iov, n ≠ 0))
  | .mmap k fd length offset vaddr _ => inferInstanceAs (Decidable (Mappable length offset vaddr → ¬WriteOnly w k fd))
  | .sendfile k outFd inFd _ _ => inferInstanceAs (Decidable (_ → _ → ¬ReadOnly w k outFd ∧ ¬WriteOnly w k inFd))
  | .opn .. | .pipe .. | .table _ | .ftruncate .. | .lseek .. | .setfl .. | .other _ => inferInstanceAs (Decidable True)

/-- A file is opened `O_RDONLY`, duplicated, and inherited. -/
def readerCalls : List (Label (Others Unit)) :=
  [.opn 0 (some 7) 0 (some 0) 0 0, .table (.dup 0 0), .table (.fork 0 true fun _ => .empty)]

/-- The child tries to write by its copy of the descriptor. -/
theorem enforced_iff_runOk_child :
    let l := readerCalls ++ [.pwrite 1 1 [104] 0, .writev 1 0 [[104]], .ftruncate 1 1 0, .read 1 1 4]
    ∃ w', (machine (ramfsFops noFops) others NewFile).RunOk (Law (ramfsFops noFops)) newWorld l w' := by
  intro l
  have hrun : ((machine (ramfsFops noFops) others NewFile).check (Looks (ramfsFops noFops)) newWorld l).isSome = true := by
    decide +kernel
  obtain ⟨w', h⟩ := Option.isSome_iff_exists.1 hrun
  have hlook := Machine.runOk_of_check _ h
  exact ⟨w', (enforced_iff_runOk ramfsOpened others NewFile l newWorld w' newWorld_init).2 hlook⟩

/-- The child writes with `write`, which takes its byte, and a file that was opened `O_WRONLY` reads it. -/
theorem not_enforced : ∃ w, (machine (ramfsFops noFops) others NewFile).init newWorld ∧
    (machine (ramfsFops noFops) others NewFile).run newWorld
      (readerCalls ++ [.opn 0 (some 8) 1 (some 0) 0 0, .write 1 0 [104]]) = some w ∧
    ReadOnly w 1 0 ∧ contents w.sys.dev.file = [104] ∧ ¬Law (ramfsFops noFops) w (.write 1 0 [105] : Label (Others Unit)) ∧
    WriteOnly w 0 2 ∧ countOf (sysRead (ramfsFops noFops) w.sys 0 2 1).1 = 1 := by
  have hrun : ((machine (ramfsFops noFops) others NewFile).run newWorld
      (readerCalls ++ [.opn 0 (some 8) 1 (some 0) 0 0, .write 1 0 [104]])).map (fun w => (decide (ReadOnly w 1 0),
        contents w.sys.dev.file, (sysWrite (ramfsFops noFops) w.sys 1 0 [105]).1, decide (WriteOnly w 0 2),
        countOf (sysRead (ramfsFops noFops) w.sys 0 2 1).1)) = some (true, [104], 1, true, 1) := by
    decide +kernel
  obtain ⟨w, h, hval⟩ := Option.map_eq_some_iff.1 hrun
  simp only [Prod.mk.injEq, decide_eq_true_eq] at hval
  obtain ⟨hro, hc, hret, hwo, hread⟩ := hval
  refine ⟨w, newWorld_init, h, hro, hc, fun hlaw => ?_, hwo, hread⟩
  exact absurd (hret.symm.trans ((hlaw hro).1.2 trivial)) (by decide)

end Access
end Transfer
end Pico
