import Picomimi.FilesRun
/-!
# FdTable — indices into descriptor tables, and the bitmap `open_fds`

The calls of `Files` again, with what that model leaves out: every index a call applies to `fd_array`, and the bits of
`open_fds`.  `fd_install` sets a bit and `do_close` clears it; `dup2` and `F_DUPFD` store into the table themselves and set
none, at indices up to `MAX_FDS_PER_PROCESS`.  `truthful_iff` says which runs keep every index in the table and the bitmap
true: those in which neither of them stores anything.
-/
namespace Pico
namespace FdTable

open Lib Files

/-- The tables, the bits of their `open_fds`, and whether every index so far was below `max_fds`. -/
structure Fdt where
  base : Files.State
  openFds : Nat → Int → Bool
  inRange : Bool

namespace Fdt

def lift (s : Fdt) (f : Files.State → Files.State) : Fdt := { s with base := f s.base }

/-- The entries at these indices are read or written. -/
def touch (s : Fdt) (is : List Int) : Fdt := { s with inRange := s.inRange && is.all fun i => InTable i }

def setBit (s : Fdt) (k : Nat) (fd : Int) (b : Bool) : Fdt :=
  { s with openFds := Function.update s.openFds k (Function.update (s.openFds k) fd b) }

end Fdt

/-! ## The calls -/

/-- The indices of a loop of `get_unused_fd`. -/
def unusedScan (t : FilesStruct) : Nat → Nat → List Int
  | 0, _ => []
  | n + 1, i => (i : Int) :: if (t.fdArray i).file = none then [] else unusedScan t n (i + 1)

def getUnusedFd (s : Fdt) (k : Nat) : Option Nat × Fdt :=
  match s.base.files k with
  | none => (none, s)
  | some t =>
    let s := s.touch (unusedScan t (maxFds - t.nextFd) t.nextFd)
    match firstUnused t (maxFds - t.nextFd) t.nextFd with
    | some i => (some i, s.lift (·.setTable k { t with nextFd := i + 1 }))
    | none =>
      let s := s.touch (unusedScan t t.nextFd 0)
      match firstUnused t t.nextFd 0 with
      | some i => (some i, s.lift (·.setTable k { t with nextFd := i + 1 }))
      | none => (none, s)

def fdInstall (s : Fdt) (k : Nat) (fd : Int) (f : Nat) : Fdt :=
  if InTable fd then ((s.touch [fd]).lift (·.setSlot k fd { s.base.entry k fd with file := some f })).setBit k fd true
  else s

def fget (s : Fdt) (k : Nat) (fd : Int) : Option Nat × Fdt :=
  if InTable fd then
    match (s.base.entry k fd).file with
    | none => (none, s.touch [fd])
    | some f => (some f, (s.touch [fd]).lift (·.incFile f))
  else (none, s)

def doClose (s : Fdt) (k : Nat) (fd : Int) : Int × Fdt :=
  if InTable fd then
    let s' := ((s.touch [fd]).lift (·.setSlot k fd .empty)).setBit k fd false
    match (s.base.entry k fd).file with
    | none => (-ebadf, s')
    | some f => (0, s'.lift (fput · f))
  else (-ebadf, s)

def sysOpen (s : Fdt) (k : Nat) (new : Option Nat) : Option Int × Fdt :=
  match new with
  | none => (none, s)
  | some f =>
    match getUnusedFd (s.lift (·.newFile f none)) k with
    | (none, s) => (some (-emfile), s.lift (filpClose · f))
    | (some fd, s) => (some fd, fdInstall s k fd f)

def sysDup (s : Fdt) (k : Nat) (oldfd : Int) : Int × Fdt :=
  match fget s k oldfd with
  | (none, s) => (-ebadf, s)
  | (some f, s) =>
    match getUnusedFd s k with
    | (none, s) => (-emfile, s.lift (fput · f))
    | (some newfd, s) => (newfd, fdInstall s k newfd f)

/-- "Close newfd if open". -/
def closeExisting (s : Fdt) (k : Nat) (newfd : Int) : Fdt :=
  match fget s k newfd with
  | (none, s) => s
  | (some existing, s) => (doClose (s.lift (fput · existing)) k newfd).2

def sysDup2 (s : Fdt) (k : Nat) (oldfd newfd : Int) : Int × Fdt :=
  if oldfd = newfd then
    match fget s k oldfd with
    | (none, s) => (-ebadf, s)
    | (some f, s) => (newfd, s.lift (fput · f))
  else
    match fget s k oldfd with
    | (none, s) => (-ebadf, s)
    | (some f, s) =>
      if newfd < 0 ∨ maxFdsPerProcess ≤ newfd then (-ebadf, s.lift (fput · f))
      else (newfd, ((closeExisting s k newfd).touch [newfd]).lift (·.setSlot k newfd ⟨some f, false⟩))

def sysDup3 (s : Fdt) (k : Nat) (oldfd newfd : Int) (cloexec : Bool) : Int × Fdt :=
  if oldfd = newfd then (-einval, s)
  else
    let r := sysDup2 s k oldfd newfd
    if r.1 < 0 then r
    else if cloexec then
      (r.1, (r.2.touch [newfd]).lift fun b => b.setSlot k newfd { b.entry k newfd with cloexec := true })
    else r

/-- The indices of the loop of `F_DUPFD`. -/
def dupfdScan (s : Files.State) (k : Nat) : Nat → Int → List Int
  | 0, _ => []
  | n + 1, i => i :: if (s.entry k i).file = none then [] else dupfdScan s k n (i + 1)

/-- `sys_fcntl` with `F_DUPFD` or `F_DUPFD_CLOEXEC`. -/
def sysDupfd (s : Fdt) (k : Nat) (fd arg : Int) (cloexec : Bool) : Int × Fdt :=
  if fd < 0 ∨ maxFdsPerProcess ≤ fd then (-ebadf, s)
  else
    let s := s.touch [fd]
    match (s.base.entry k fd).file with
    | none => (-ebadf, s)
    | some f =>
      let s := s.touch (dupfdScan s.base k (maxFdsPerProcess - arg).toNat arg)
      match dupfdSlot s.base k arg with
      | none => (-emfile, s)
      | some i => (i, s.lift fun b => (b.setSlot k i ⟨some f, cloexec⟩).incFile f)

def doPipe (s : Fdt) (k : Nat) (pi rf wf : Option Nat) : Int × Fdt :=
  match pi, rf, wf with
  | some pi, some rf, some wf =>
    let s := s.lift fun b =>
      (({ b with pipes := Function.update b.pipes pi (some ⟨1, 1⟩) }).newFile rf (some (.read, pi))).newFile wf
        (some (.write, pi))
    let pipeFree (s : Fdt) : Fdt := s.lift fun b => { b with pipes := Function.update b.pipes pi none }
    match getUnusedFd s k with
    | (none, s) => (-emfile, pipeFree (s.lift fun b => (b.kfreeFile rf).kfreeFile wf))
    | (some rfd, s) =>
      match getUnusedFd (fdInstall s k rfd rf) k with
      | (none, s) => (-emfile, pipeFree ((doClose s k rfd).2.lift (·.kfreeFile wf)))
      | (some wfd, s) => (0, fdInstall s k wfd wf)
  | _, _, _ => (-enomem, s)

/-- `files_copy` in `task_fork`: the child is the next task. -/
def filesCopy (s : Fdt) (k : Nat) (mem : Bool) (junk : Int → FdEntry) : Fdt :=
  if mem ∧ (s.base.files k).isSome then
    { base := Files.filesCopy s.base k mem junk
      openFds := Function.update s.openFds s.base.ntasks (s.openFds k)
      inRange := (s.touch ((List.range maxFds).map Int.ofNat)).inRange }
  else s.lift (Files.filesCopy · k mem junk)

inductive Call where
  | opn (k : Nat) (new : Option Nat)
  | close (k : Nat) (fd : Int)
  | dup (k : Nat) (oldfd : Int)
  | dup2 (k : Nat) (oldfd newfd : Int)
  | dup3 (k : Nat) (oldfd newfd : Int) (cloexec : Bool)
  | dupfd (k : Nat) (fd arg : Int) (cloexec : Bool)
  | pipe (k : Nat) (pi rf wf : Option Nat)
  | fork (k : Nat) (mem : Bool) (junk : Int → FdEntry)

def Call.task : Call → Nat
  | .opn k _ | .close k _ | .dup k _ | .dup2 k _ _ | .dup3 k _ _ _ | .dupfd k _ _ _ | .pipe k _ _ _ | .fork k _ _ => k

/-- `kmalloc` returns memory that is not in use. -/
def Call.Fresh (s : Files.State) : Call → Prop
  | .opn _ new => ∀ f ∈ new, s.NewFile f
  | .pipe _ pi rf wf => s.NewPipe pi rf wf
  | _ => True

instance (s : Files.State) : (c : Call) → Decidable (c.Fresh s)
  | .opn _ new => inferInstanceAs (Decidable (∀ f ∈ new, s.NewFile f))
  | .pipe _ pi rf wf => inferInstanceAs (Decidable (s.NewPipe pi rf wf))
  | .close _ _ | .dup _ _ | .dup2 _ _ _ | .dup3 _ _ _ _ | .dupfd _ _ _ _ | .fork _ _ _ => inferInstanceAs (Decidable True)

def Call.run (s : Fdt) : Call → Fdt
  | .opn k new => (sysOpen s k new).2
  | .close k fd => (FdTable.doClose s k fd).2
  | .dup k oldfd => (sysDup s k oldfd).2
  | .dup2 k oldfd newfd => (sysDup2 s k oldfd newfd).2
  | .dup3 k oldfd newfd cloexec => (sysDup3 s k oldfd newfd cloexec).2
  | .dupfd k fd arg cloexec => (sysDupfd s k fd arg cloexec).2
  | .pipe k pi rf wf => (doPipe s k pi rf wf).2
  | .fork k mem junk => filesCopy s k mem junk

/-- A task with a table makes a call. -/
def step (s : Fdt) (c : Call) : Option Fdt :=
  if s.base.Live c.task ∧ c.Fresh s.base then some (c.run s) else none

/-- One task, as `files_alloc` leaves its table. -/
def machine : Machine Fdt Call where
  init s := fileMachine.init s.base ∧ (∀ i, s.openFds 0 i = false) ∧ s.inRange = true
  step := step

variable {s s' : Fdt} {k fd' n : Nat} {fd i : Int} {f : Nat} {e : FdEntry} {is : List Int} {t : FilesStruct}

/-! ## The same calls on the same tables -/

@[simp] theorem lift_base (g : Files.State → Files.State) : (s.lift g).base = g s.base := rfl
@[simp] theorem touch_base : (s.touch is).base = s.base := rfl
@[simp] theorem setBit_base (b : Bool) : (s.setBit k fd b).base = s.base := rfl
@[simp] theorem lift_openFds (g : Files.State → Files.State) : (s.lift g).openFds = s.openFds := rfl
@[simp] theorem touch_openFds : (s.touch is).openFds = s.openFds := rfl
@[simp] theorem lift_inRange (g : Files.State → Files.State) : (s.lift g).inRange = s.inRange := rfl
@[simp] theorem setBit_inRange (b : Bool) : (s.setBit k fd b).inRange = s.inRange := rfl

def Call.label : Call → Files.Label
  | .opn k new => .opn k new
  | .close k fd => .close k fd
  | .dup k oldfd => .dup k oldfd
  | .dup2 k oldfd newfd => .dup2 k oldfd newfd
  | .dup3 k oldfd newfd cloexec => .dup3 k oldfd newfd cloexec
  | .dupfd k fd arg cloexec => .dupfd k fd arg cloexec
  | .pipe k pi rf wf => .pipe k pi rf wf
  | .fork k mem junk => .fork k mem junk

theorem getUnusedFd_base (s : Fdt) (k : Nat) :
    Files.getUnusedFd s.base k = ((getUnusedFd s k).1, (getUnusedFd s k).2.base) := by
  unfold getUnusedFd Files.getUnusedFd
  cases s.base.files k with
  | none => rfl
  | some t =>
    dsimp only
    cases firstUnused t (maxFds - t.nextFd) t.nextFd with
    | some i => rfl
    | none =>
      dsimp only
      cases firstUnused t t.nextFd 0 <;> rfl

theorem fdInstall_base (s : Fdt) (k : Nat) (fd : Int) (f : Nat) :
    Files.fdInstall s.base k fd f = (fdInstall s k fd f).base := by
  unfold fdInstall Files.fdInstall
  split <;> rfl

theorem fget_base (s : Fdt) (k : Nat) (fd : Int) : Files.fget s.base k fd = ((fget s k fd).1, (fget s k fd).2.base) := by
  unfold fget Files.fget State.lookup
  by_cases hi : InTable fd
  · rw [if_pos hi, if_pos hi]
    cases (s.base.entry k fd).file <;> rfl
  · rw [if_neg hi, if_neg hi]

theorem doClose_base (s : Fdt) (k : Nat) (fd : Int) :
    Files.doClose s.base k fd = ((doClose s k fd).1, (doClose s k fd).2.base) := by
  unfold doClose Files.doClose
  by_cases hi : InTable fd
  · rw [if_pos hi, if_pos hi]
    dsimp only
    cases (s.base.entry k fd).file <;> rfl
  · rw [if_neg hi, if_neg hi]

theorem sysOpen_base (s : Fdt) (k : Nat) (new : Option Nat) :
    Files.sysOpen s.base k new = ((sysOpen s k new).1, (sysOpen s k new).2.base) := by
  unfold sysOpen Files.sysOpen
  cases new with
  | none => rfl
  | some f =>
    dsimp only
    rw [← lift_base (s := s) (State.newFile · f none), getUnusedFd_base]
    rcases getUnusedFd (s.lift (·.newFile f none)) k with ⟨_ | fd, u⟩
    · rfl
    · dsimp only
      rw [fdInstall_base]

theorem sysDup_base (s : Fdt) (k : Nat) (fd : Int) :
    Files.sysDup s.base k fd = ((sysDup s k fd).1, (sysDup s k fd).2.base) := by
  unfold sysDup Files.sysDup
  rw [fget_base]
  rcases fget s k fd with ⟨_ | f, u⟩
  · rfl
  · dsimp only
    rw [getUnusedFd_base]
    rcases getUnusedFd u k with ⟨_ | newfd, v⟩
    · rfl
    · dsimp only
      rw [fdInstall_base]

theorem closeExisting_base (s : Fdt) (k : Nat) (fd : Int) :
    Files.closeExisting s.base k fd = (closeExisting s k fd).base := by
  unfold closeExisting Files.closeExisting
  rw [fget_base]
  rcases fget s k fd with ⟨_ | f, u⟩
  · rfl
  · dsimp only
    rw [← lift_base (fput · f), doClose_base]

theorem sysDup2_base (s : Fdt) (k : Nat) (oldfd newfd : Int) :
    Files.sysDup2 s.base k oldfd newfd = ((sysDup2 s k oldfd newfd).1, (sysDup2 s k oldfd newfd).2.base) := by
  unfold sysDup2 Files.sysDup2
  rw [fget_base]
  rcases fget s k oldfd with ⟨_ | f, u⟩
  · split <;> rfl
  · dsimp only
    rw [closeExisting_base]
    split
    · rfl
    · split <;> rfl

theorem sysDup3_base (s : Fdt) (k : Nat) (oldfd newfd : Int) (cloexec : Bool) :
    Files.sysDup3 s.base k oldfd newfd cloexec =
      ((sysDup3 s k oldfd newfd cloexec).1, (sysDup3 s k oldfd newfd cloexec).2.base) := by
  unfold sysDup3 Files.sysDup3
  dsimp only
  rw [sysDup2_base]
  split
  · rfl
  · dsimp only
    split
    · rfl
    · split <;> rfl

theorem sysDupfd_base (s : Fdt) (k : Nat) (fd arg : Int) (cloexec : Bool) :
    Files.sysDupfd s.base k fd arg cloexec =
      ((sysDupfd s k fd arg cloexec).1, (sysDupfd s k fd arg cloexec).2.base) := by
  unfold sysDupfd Files.sysDupfd
  split
  · rfl
  · dsimp only [touch_base]
    cases (s.base.entry k fd).file with
    | none => rfl
    | some f =>
      dsimp only
      cases dupfdSlot s.base k arg <;> rfl

theorem doPipe_base (s : Fdt) (k : Nat) (pi rf wf : Option Nat) :
    Files.doPipe s.base k pi rf wf = ((doPipe s k pi rf wf).1, (doPipe s k pi rf wf).2.base) := by
  rcases pi with _ | p
  · rfl
  rcases rf with _ | r
  · rfl
  rcases wf with _ | w
  · rfl
  unfold doPipe Files.doPipe
  dsimp only
  have hbase := getUnusedFd_base (s.lift fun b =>
    (({ b with pipes := Function.update b.pipes p (some ⟨1, 1⟩) }).newFile r (some (.read, p))).newFile w
      (some (.write, p))) k
  rw [lift_base] at hbase
  rw [hbase]
  rcases getUnusedFd _ k with ⟨_ | rfd, u⟩
  · rfl
  · dsimp only
    rw [fdInstall_base, getUnusedFd_base]
    rcases getUnusedFd _ k with ⟨_ | wfd, v⟩
    · dsimp only
      rw [doClose_base]
      rfl
    · dsimp only
      rw [fdInstall_base]

theorem filesCopy_base (s : Fdt) (k : Nat) (mem : Bool) (junk : Int → FdEntry) :
    (filesCopy s k mem junk).base = Files.filesCopy s.base k mem junk := by
  unfold filesCopy
  split <;> rfl

theorem run_base (s : Fdt) (c : Call) (h : s.base.Live c.task ∧ c.Fresh s.base) :
    fileStep s.base c.label = some (c.run s).base := by
  cases c with
  | opn k new => exact (if_pos h).trans (by rw [sysOpen_base]; rfl)
  | close k fd => exact (if_pos h.1).trans (by rw [doClose_base]; rfl)
  | dup k fd => exact (if_pos h.1).trans (by rw [sysDup_base]; rfl)
  | dup2 k old new => exact (if_pos h.1).trans (by rw [sysDup2_base]; rfl)
  | dup3 k old new ce => exact (if_pos h.1).trans (by rw [sysDup3_base]; rfl)
  | dupfd k fd arg ce => exact (if_pos h.1).trans (by rw [sysDupfd_base]; rfl)
  | pipe k pi rf wf => exact (if_pos h).trans (by rw [doPipe_base]; rfl)
  | fork k mem junk => exact (if_pos h.1).trans (by rw [← filesCopy_base]; rfl)

/-- **A call here is the call of `Files`**, on the same tables. -/
theorem step_base {c : Call} (h : step s c = some s') : fileStep s.base c.label = some s'.base := by
  unfold step at h
  split at h
  · cases h
    exact run_base s c ‹_›
  · cases h

/-- **A run here is a run of `Files`.** -/
theorem run_files : ∀ (l : List Call) {s s' : Fdt}, machine.run s l = some s' →
    fileMachine.run s.base (l.map Call.label) = some s'.base
  | [], _, _, h => by
    cases h
    rfl
  | _ :: l, _, _, h => by
    obtain ⟨t, ht, hrun⟩ := machine.run_cons.1 h
    exact fileMachine.run_cons.2 ⟨t.base, step_base ht, run_files l hrun⟩

/-! ## Truthful tables -/

/-- **Every index so far was in its table, and a bit is set exactly when its entry holds a file.**  A descriptor is reserved
only within a call. -/
structure Truthful (s : Fdt) : Prop where
  inRange : s.inRange = true
  bits : ∀ k t, s.base.files k = some t → ∀ i, InTable i → (s.openFds k i = true ↔ (t.fdArray i).file ≠ none)

structure Inv (s : Fdt) : Prop extends Truthful s where
  next : ∀ k t, s.base.files k = some t → t.nextFd ≤ maxFds

theorem Inv.congr (h : Inv s) (hf : s'.base.files = s.base.files) (hb : s'.openFds = s.openFds) (hr : s'.inRange = true) :
    Inv s' where
  inRange := hr
  bits := by
    rw [hf, hb]
    exact h.bits
  next := by
    rw [hf]
    exact h.next

/-- A change of the counts alone. -/
theorem Inv.lift (h : Inv s) (g : Files.State → Files.State) (hg : (g s.base).files = s.base.files) : Inv (s.lift g) :=
  h.congr hg rfl h.inRange

theorem touch_inRange : (s.touch is).inRange = true ↔ s.inRange = true ∧ ∀ i ∈ is, InTable i := by
  simp [Fdt.touch]

theorem Inv.touch (h : Inv s) (his : ∀ i ∈ is, InTable i) : Inv (s.touch is) :=
  h.congr rfl rfl (touch_inRange.2 ⟨h.inRange, his⟩)

theorem Inv.setNext (h : Inv s) (ht : s.base.files k = some t) (hn : n ≤ maxFds) :
    Inv (s.lift (·.setTable k { t with nextFd := n })) where
  inRange := h.inRange
  bits j u hu i hi := by
    simp only [lift_base, State.setTable, Function.update_apply] at hu
    by_cases hj : j = k
    · rw [if_pos hj] at hu
      cases hu
      exact h.bits j t (hj ▸ ht) i hi
    · rw [if_neg hj] at hu
      exact h.bits j u hu i hi
  next j u hu := by
    simp only [lift_base, State.setTable, Function.update_apply] at hu
    by_cases hj : j = k
    · rw [if_pos hj] at hu
      cases hu
      exact hn
    · rw [if_neg hj] at hu
      exact h.next j u hu

/-- **A store that sets its bit.** -/
theorem Inv.store (h : Inv s) {b : Bool} (hb : b = true ↔ e.file ≠ none) :
    Inv ((s.lift (·.setSlot k fd e)).setBit k fd b) := by
  cases ht : s.base.files k with
  | none =>
    have hbase : s.base.setSlot k fd e = s.base := by
      unfold State.setSlot
      rw [ht]
    refine ⟨⟨h.inRange, fun j u hu i hi => ?_⟩, fun j u hu => ?_⟩
    · simp only [setBit_base, lift_base, hbase] at hu
      have hj : j ≠ k := by
        rintro rfl
        rw [ht] at hu
        cases hu
      simp only [Fdt.setBit, Function.update_of_ne hj, lift_openFds]
      exact h.bits j u hu i hi
    · simp only [setBit_base, lift_base, hbase] at hu
      exact h.next j u hu
  | some t =>
    refine ⟨⟨h.inRange, fun j u hu i hi => ?_⟩, fun j u hu => ?_⟩
    all_goals simp only [setBit_base, lift_base, setSlot_eq ht, State.setTable, Function.update_apply] at hu
    · by_cases hj : j = k
      · rw [if_pos hj] at hu
        cases hu
        subst hj
        simp only [Fdt.setBit, Function.update_self, lift_openFds, FilesStruct.set, Function.update_apply]
        by_cases hif : i = fd
        · rw [if_pos hif, if_pos hif]
          exact hb
        · rw [if_neg hif, if_neg hif]
          exact h.bits j t ht i hi
      · rw [if_neg hj] at hu
        simp only [Fdt.setBit, Function.update_of_ne hj, lift_openFds]
        exact h.bits j u hu i hi
    · by_cases hj : j = k
      · rw [if_pos hj] at hu
        cases hu
        exact h.next k t ht
      · rw [if_neg hj] at hu
        exact h.next j u hu

theorem Inv.bit (h : Inv s) (hk : (s.base.files k).isSome) (hi : InTable i) :
    s.openFds k i = true ↔ (s.base.entry k i).file ≠ none := by
  obtain ⟨t, ht⟩ := Option.isSome_iff_exists.1 hk
  rw [entry_eq ht]
  exact h.bits k t ht i hi

/-! ## The calls that keep the tables truthful -/

theorem mem_unusedScan : ∀ {n j : Nat}, i ∈ unusedScan t n j → (j : Int) ≤ i ∧ i < j + n
  | n + 1, j, h => by
    unfold unusedScan at h
    rcases List.mem_cons.1 h with rfl | h
    · omega
    · split at h
      · cases h
      · have := mem_unusedScan h
        omega

theorem Inv.getUnusedFd (h : Inv s) (k : Nat) : Inv (getUnusedFd s k).2 := by
  unfold FdTable.getUnusedFd
  cases ht : s.base.files k with
  | none => exact h
  | some t =>
    have hn := h.next k t ht
    have h1 : Inv (s.touch (unusedScan t (maxFds - t.nextFd) t.nextFd)) := h.touch fun i hi => by
      have := mem_unusedScan hi
      unfold InTable
      omega
    dsimp only
    cases hu : firstUnused t (maxFds - t.nextFd) t.nextFd with
    | some i =>
      have := firstUnused_spec hu
      exact h1.setNext ht (by omega)
    | none =>
      have h2 : Inv ((s.touch (unusedScan t (maxFds - t.nextFd) t.nextFd)).touch (unusedScan t t.nextFd 0)) :=
        h1.touch fun i hi => by
          have := mem_unusedScan hi
          unfold InTable
          omega
      dsimp only
      cases hu : firstUnused t t.nextFd 0 with
      | some i =>
        have := firstUnused_spec hu
        exact h2.setNext ht (by omega)
      | none => exact h2

theorem Inv.fdInstall (h : Inv s) (k : Nat) (fd : Int) (f : Nat) : Inv (fdInstall s k fd f) := by
  unfold FdTable.fdInstall
  split
  · have h1 : Inv (s.touch [fd]) := h.touch (by simpa)
    exact h1.store (by simp)
  · exact h

theorem Inv.fget (h : Inv s) (k : Nat) (fd : Int) : Inv (fget s k fd).2 := by
  unfold FdTable.fget
  split
  · have h1 : Inv (s.touch [fd]) := h.touch (by simpa)
    cases (s.base.entry k fd).file with
    | none => exact h1
    | some f => exact h1.lift (·.incFile f) rfl
  · exact h

theorem Inv.doClose (h : Inv s) (k : Nat) (fd : Int) : Inv (doClose s k fd).2 := by
  unfold FdTable.doClose
  split
  · have h1 : Inv (s.touch [fd]) := h.touch (by simpa)
    have h2 : Inv (((s.touch [fd]).lift (·.setSlot k fd .empty)).setBit k fd false) := h1.store (by simp [FdEntry.empty])
    cases (s.base.entry k fd).file with
    | none => exact h2
    | some f => exact h2.lift (fput · f) rfl
  · exact h

theorem Inv.sysOpen (h : Inv s) (k : Nat) (new : Option Nat) : Inv (sysOpen s k new).2 := by
  unfold FdTable.sysOpen
  cases new with
  | none => exact h
  | some f =>
    have h1 := (h.lift (·.newFile f none) rfl).getUnusedFd k
    dsimp only
    generalize FdTable.getUnusedFd _ k = r at h1 ⊢
    rcases r with ⟨_ | fd, u⟩
    · exact h1.lift (filpClose · f) (filpClose_files _ f)
    · exact h1.fdInstall k fd f

theorem Inv.sysDup (h : Inv s) (k : Nat) (fd : Int) : Inv (sysDup s k fd).2 := by
  unfold FdTable.sysDup
  have h1 := h.fget k fd
  generalize FdTable.fget s k fd = r at h1 ⊢
  rcases r with ⟨_ | f, u⟩
  · exact h1
  · have h2 := h1.getUnusedFd k
    dsimp only at h2 ⊢
    generalize FdTable.getUnusedFd u k = r at h2 ⊢
    rcases r with ⟨_ | newfd, v⟩
    · exact h2.lift (fput · f) rfl
    · exact h2.fdInstall k newfd f

theorem Inv.doPipe (h : Inv s) (k : Nat) (pi rf wf : Option Nat) : Inv (doPipe s k pi rf wf).2 := by
  unfold FdTable.doPipe
  rcases pi with _ | p
  · exact h
  rcases rf with _ | r
  · exact h
  rcases wf with _ | w
  · exact h
  dsimp only
  have h1 := (h.lift (fun b =>
    (({ b with pipes := Function.update b.pipes p (some ⟨1, 1⟩) }).newFile r (some (.read, p))).newFile w
      (some (.write, p))) rfl).getUnusedFd k
  generalize FdTable.getUnusedFd _ k = q at h1 ⊢
  rcases q with ⟨_ | rfd, u⟩
  · exact h1.congr rfl rfl h1.inRange
  · have h2 := (h1.fdInstall k rfd r).getUnusedFd k
    dsimp only at h2 ⊢
    generalize FdTable.getUnusedFd _ k = q at h2 ⊢
    rcases q with ⟨_ | wfd, v⟩
    · have h3 := h2.doClose k rfd
      exact h3.congr rfl rfl h3.inRange
    · exact h2.fdInstall k wfd w

theorem Inv.filesCopy (h : Inv s) (k : Nat) (mem : Bool) (junk : Int → FdEntry) : Inv (filesCopy s k mem junk) := by
  unfold FdTable.filesCopy
  cases ht : s.base.files k with
  | none =>
    rw [if_neg (by simp)]
    exact h.lift _ (by simp only [Files.filesCopy, ht])
  | some t =>
    cases mem with
    | false =>
      rw [if_neg (by simp)]
      exact h.lift _ (by simp [Files.filesCopy, ht])
    | true =>
      rw [if_pos (by simp)]
      have hbase : (Files.filesCopy s.base k true junk).files =
          Function.update s.base.files s.base.ntasks (some (t.copy junk)) := by simp [Files.filesCopy, ht]
      refine ⟨⟨?_, fun j u hu i hi => ?_⟩, fun j u hu => ?_⟩
      · refine touch_inRange.2 ⟨h.inRange, fun i hi => ?_⟩
        obtain ⟨n, hn, rfl⟩ := List.mem_map.1 hi
        exact inTable_iff.2 (List.mem_range.1 hn)
      all_goals
        simp only [hbase, Function.update_apply] at hu
      · simp only [Function.update_apply]
        by_cases hj : j = s.base.ntasks
        · rw [if_pos hj] at hu ⊢
          cases hu
          rw [h.bits k t ht i hi]
          simp only [FilesStruct.copy, if_pos hi]
          split <;> simp_all [FdEntry.empty]
        · rw [if_neg hj] at hu ⊢
          exact h.bits j u hu i hi
      · by_cases hj : j = s.base.ntasks
        · rw [if_pos hj] at hu
          cases hu
          exact h.next k t ht
        · rw [if_neg hj] at hu
          exact h.next j u hu

/-! ## The calls that store by themselves -/

/-- `dup2` stores an entry. -/
def Dup2Stores (s : Files.State) (k : Nat) (oldfd newfd : Int) : Prop :=
  oldfd ≠ newfd ∧ s.lookup k oldfd ≠ none ∧ 0 ≤ newfd ∧ newfd < maxFdsPerProcess

instance (s : Files.State) (k : Nat) (oldfd newfd : Int) : Decidable (Dup2Stores s k oldfd newfd) :=
  inferInstanceAs (Decidable (_ ∧ _ ∧ _ ∧ _))

/-- `F_DUPFD` looks for an entry to store into, or looks up its `fd` beyond the table. -/
def DupfdSearches (s : Files.State) (k : Nat) (fd arg : Int) : Prop :=
  0 ≤ fd ∧ fd < maxFdsPerProcess ∧ (maxFds ≤ fd ∨ ((s.entry k fd).file ≠ none ∧ arg < maxFdsPerProcess))

instance (s : Files.State) (k : Nat) (fd arg : Int) : Decidable (DupfdSearches s k fd arg) :=
  inferInstanceAs (Decidable (_ ∧ _ ∧ _))

/-- **Neither `dup2` nor `F_DUPFD` gets as far as the table**: the other calls go by `max_fds` and keep the bits. -/
def Call.StoresNone (s : Files.State) : Call → Prop
  | .dup2 k oldfd newfd => ¬Dup2Stores s k oldfd newfd
  | .dup3 k oldfd newfd _ => ¬Dup2Stores s k oldfd newfd
  | .dupfd k fd arg _ => ¬DupfdSearches s k fd arg
  | _ => True

/-- What is wrong after such a store. -/
def Spoilt (s : Fdt) (k : Nat) (i : Int) : Prop :=
  s.inRange = false ∨ (InTable i ∧ s.openFds k i = false ∧ (s.base.files k).isSome ∧ (s.base.entry k i).file ≠ none)

theorem Spoilt.not_truthful (h : Spoilt s k i) : ¬Truthful s := by
  rintro ⟨hr, hb⟩
  rcases h with h | ⟨hi, hoff, hk, hf⟩
  · rw [hr] at h
    cases h
  · obtain ⟨t, ht⟩ := Option.isSome_iff_exists.1 hk
    rw [entry_eq ht] at hf
    have := (hb k t ht i hi).2 hf
    rw [hoff] at this
    cases this

theorem fget_fst (s : Fdt) (k : Nat) (fd : Int) : (fget s k fd).1 = s.base.lookup k fd := by
  have h := congrArg Prod.fst (fget_base s k fd)
  rw [fget_eq] at h
  exact h.symm

theorem fget_files (s : Fdt) (k : Nat) (fd : Int) : (fget s k fd).2.base.files = s.base.files := by
  unfold fget
  split
  · split <;> rfl
  · rfl

theorem isSome_of_setSlot {b : Files.State} (h : ((b.setSlot k i e).files k).isSome) : (b.files k).isSome := by
  cases ht : b.files k with
  | none =>
    unfold State.setSlot at h
    rw [ht] at h
    simp [ht] at h
  | some t => rfl

/-- Closing the entry leaves its bit clear. -/
theorem Inv.closeExisting_bit (h : Inv s) (hk : (s.base.files k).isSome) (hi : InTable fd) :
    (closeExisting s k fd).openFds k fd = false := by
  unfold closeExisting FdTable.fget
  rw [if_pos hi]
  cases hf : (s.base.entry k fd).file with
  | none =>
    have hb := h.bit hk hi
    simpa [hf] using hb
  | some f =>
    dsimp only
    unfold FdTable.doClose
    rw [if_pos hi]
    dsimp only
    split <;> simp [Fdt.setBit]

theorem sysDup2_error {oldfd newfd : Int} (hne : oldfd ≠ newfd) (hno : ¬Dup2Stores s.base k oldfd newfd) :
    (sysDup2 s k oldfd newfd).1 = -ebadf := by
  unfold Dup2Stores at hno
  rw [← fget_fst] at hno
  unfold sysDup2
  rw [if_neg hne]
  generalize fget s k oldfd = r at hno ⊢
  rcases r with ⟨_ | f, u⟩
  · rfl
  · have hout : newfd < 0 ∨ maxFdsPerProcess ≤ newfd := by
      by_contra hc
      exact hno ⟨hne, by simp, by omega, by omega⟩
    dsimp only
    rw [if_pos hout]

theorem Inv.sysDup2 (h : Inv s) {oldfd newfd : Int} (hno : ¬Dup2Stores s.base k oldfd newfd) :
    Inv (sysDup2 s k oldfd newfd).2 := by
  have h1 := h.fget k oldfd
  unfold Dup2Stores at hno
  rw [← fget_fst] at hno
  unfold FdTable.sysDup2
  generalize FdTable.fget s k oldfd = r at hno h1 ⊢
  rcases r with ⟨_ | f, u⟩
  · split <;> exact h1
  · split
    · exact h1.lift (fput · f) rfl
    · have hout : newfd < 0 ∨ maxFdsPerProcess ≤ newfd := by
        by_contra hc
        exact hno ⟨‹_›, by simp, by omega, by omega⟩
      dsimp only
      rw [if_pos hout]
      exact h1.lift (fput · f) rfl

/-- **`dup2` sets no bit for what it stores**, and goes by 1024. -/
theorem Inv.dup2_spoils (h : Inv s) (hk : (s.base.files k).isSome) {oldfd newfd : Int}
    (hst : Dup2Stores s.base k oldfd newfd) :
    (FdTable.sysDup2 s k oldfd newfd).1 = newfd ∧ Spoilt (FdTable.sysDup2 s k oldfd newfd).2 k newfd := by
  obtain ⟨hne, hl, h0, hlt⟩ := hst
  have hsome := isSome_sysDup2 hk oldfd newfd
  rw [sysDup2_base] at hsome
  have h1 := h.fget k oldfd
  have hk1 : ((FdTable.fget s k oldfd).2.base.files k).isSome := by rwa [fget_files]
  rw [← fget_fst] at hl
  unfold FdTable.sysDup2 at hsome ⊢
  rw [if_neg hne] at hsome ⊢
  generalize FdTable.fget s k oldfd = r at hl h1 hk1 hsome ⊢
  rcases r with ⟨_ | f, u⟩
  · exact absurd rfl hl
  · dsimp only at hsome ⊢
    rw [if_neg (by omega)] at hsome ⊢
    refine ⟨rfl, ?_⟩
    by_cases hi : InTable newfd
    · refine Or.inr ⟨hi, h1.closeExisting_bit hk1 hi, hsome, ?_⟩
      simp only [lift_base, touch_base] at hsome ⊢
      rw [entry_setSlot (isSome_of_setSlot hsome), if_pos rfl]
      simp
    · exact Or.inl (by simp [Fdt.touch, hi])

theorem Spoilt.setFlags (h : Spoilt s k i) (c : Bool) :
    Spoilt ((s.touch [i]).lift fun b => b.setSlot k i { b.entry k i with cloexec := c }) k i := by
  rcases h with h | ⟨hi, hoff, hk, hf⟩
  · exact Or.inl (by simp [Fdt.touch, h])
  · refine Or.inr ⟨hi, hoff, isSome_setSlot hk, ?_⟩
    simp only [lift_base, touch_base]
    rwa [entry_setSlot hk, if_pos rfl]

theorem Inv.sysDup3 (h : Inv s) {oldfd newfd : Int} (hno : ¬Dup2Stores s.base k oldfd newfd) (cloexec : Bool) :
    Inv (sysDup3 s k oldfd newfd cloexec).2 := by
  unfold FdTable.sysDup3
  by_cases hne : oldfd = newfd
  · rw [if_pos hne]
    exact h
  · have herr : (FdTable.sysDup2 s k oldfd newfd).1 < 0 := by
      rw [sysDup2_error hne hno]
      decide
    rw [if_neg hne]
    dsimp only
    rw [if_pos herr]
    exact h.sysDup2 hno

theorem Inv.dup3_spoils (h : Inv s) (hk : (s.base.files k).isSome) {oldfd newfd : Int}
    (hst : Dup2Stores s.base k oldfd newfd) (cloexec : Bool) : Spoilt (FdTable.sysDup3 s k oldfd newfd cloexec).2 k newfd := by
  obtain ⟨hret, hsp⟩ := h.dup2_spoils hk hst
  unfold FdTable.sysDup3
  rw [if_neg hst.1]
  dsimp only
  rw [hret, if_neg (by have := hst.2.2.1; omega)]
  cases cloexec with
  | false => exact hsp
  | true => exact hsp.setFlags true

theorem mem_dupfdScan_of_none {b : Files.State} : ∀ {n : Nat} {j : Int}, dupfdFrom b k n j = none →
    ∀ m < n, j + (m : Int) ∈ dupfdScan b k n j
  | n + 1, j, h, m, hm => by
    unfold dupfdFrom at h
    unfold dupfdScan
    by_cases hf : (b.entry k j).file = none
    · rw [if_pos hf] at h
      cases h
    · rw [if_neg hf] at h ⊢
      cases m with
      | zero => simp
      | succ m =>
        have hmem := mem_dupfdScan_of_none h m (by omega)
        rw [show j + ((m + 1 : Nat) : Int) = j + 1 + m by omega]
        exact List.mem_cons_of_mem _ hmem

theorem mem_dupfdScan_of_some {b : Files.State} : ∀ {n : Nat} {j : Int}, dupfdFrom b k n j = some i →
    i ∈ dupfdScan b k n j
  | n + 1, j, h => by
    unfold dupfdFrom at h
    unfold dupfdScan
    by_cases hf : (b.entry k j).file = none
    · rw [if_pos hf] at h
      cases h
      exact List.mem_cons_self
    · rw [if_neg hf] at h ⊢
      exact List.mem_cons_of_mem _ (mem_dupfdScan_of_some h)

theorem Inv.sysDupfd (h : Inv s) {arg : Int} (hno : ¬DupfdSearches s.base k fd arg) (cloexec : Bool) :
    Inv (sysDupfd s k fd arg cloexec).2 := by
  unfold FdTable.sysDupfd
  split
  · exact h
  · have hi : InTable fd := by
      refine ⟨by omega, ?_⟩
      by_contra hc
      exact hno ⟨by omega, by omega, Or.inl (by omega)⟩
    have h1 : Inv (s.touch [fd]) := h.touch (by simpa)
    cases hf : (s.base.entry k fd).file with
    | none =>
      simp only [touch_base, hf]
      exact h1
    | some f =>
      have hn : (maxFdsPerProcess - arg).toNat = 0 := by
        by_contra hc
        exact hno ⟨by omega, by omega, Or.inr ⟨by simp [hf], by omega⟩⟩
      simp only [touch_base, hf, dupfdSlot, hn]
      exact h1.touch (by simp [dupfdScan])

/-- **`F_DUPFD` sets no bit for what it stores**, and goes by 1024. -/
theorem Inv.dupfd_spoils (h : Inv s) (hk : (s.base.files k).isSome) {arg : Int}
    (hst : DupfdSearches s.base k fd arg) (cloexec : Bool) : ∃ i, Spoilt (FdTable.sysDupfd s k fd arg cloexec).2 k i := by
  obtain ⟨h0, hlt, hor⟩ := hst
  unfold FdTable.sysDupfd
  rw [if_neg (by omega)]
  dsimp only [touch_base]
  by_cases hi : InTable fd
  · obtain ⟨hf, harg⟩ : (s.base.entry k fd).file ≠ none ∧ arg < maxFdsPerProcess :=
      hor.resolve_left (by have := hi.2; omega)
    obtain ⟨f, hf⟩ := Option.ne_none_iff_exists'.1 hf
    simp only [hf]
    by_cases hall : ∀ i ∈ dupfdScan s.base k (maxFdsPerProcess - arg).toNat arg, InTable i
    · cases hs : dupfdSlot s.base k arg with
      | none =>
        -- the loop passed the end of the table
        have hlast := hall _ (mem_dupfdScan_of_none hs (maxFdsPerProcess - arg - 1).toNat (by omega))
        have : maxFdsPerProcess = 1024 := rfl
        have : maxFds = 64 := rfl
        unfold InTable at hlast
        omega
      | some i =>
        have hin := hall i (mem_dupfdScan_of_some hs)
        have hoff := (h.bit hk hin).not_left.2 (by rw [dupfdFrom_empty hs])
        refine ⟨i, Or.inr ⟨hin, by simpa using hoff, isSome_setSlot hk, ?_⟩⟩
        have he := entry_setSlot (e := ⟨some f, cloexec⟩) hk (i := i) i
        rw [if_pos rfl] at he
        show ((s.base.setSlot k i _).entry k i).file ≠ none
        rw [he]
        simp
    · have hr : ((s.touch [fd]).touch (dupfdScan s.base k (maxFdsPerProcess - arg).toNat arg)).inRange = false := by
        rw [← Bool.not_eq_true, touch_inRange]
        exact fun hc => hall hc.2
      cases dupfdSlot s.base k arg with
      | none => exact ⟨0, Or.inl hr⟩
      | some i => exact ⟨0, Or.inl hr⟩
  · have hr : (s.touch [fd]).inRange = false := by
      rw [← Bool.not_eq_true, touch_inRange]
      exact fun hc => hi (hc.2 fd (by simp))
    refine ⟨0, Or.inl ?_⟩
    cases (s.base.entry k fd).file with
    | none => exact hr
    | some f =>
      cases dupfdSlot s.base k arg <;> simp [Fdt.touch, hi]

/-! ## Runs -/

theorem inv_of_step {c : Call} (h : Inv s) (hs : step s c = some s') (hc : c.StoresNone s.base) : Inv s' := by
  unfold step at hs
  split at hs
  · cases hs
    cases c with
    | opn k new => exact h.sysOpen k new
    | close k fd => exact h.doClose k fd
    | dup k fd => exact h.sysDup k fd
    | dup2 k old new => exact h.sysDup2 hc
    | dup3 k old new ce => exact h.sysDup3 hc ce
    | dupfd k fd arg ce => exact h.sysDupfd hc ce
    | pipe k pi rf wf => exact h.doPipe k pi rf wf
    | fork k mem junk => exact h.filesCopy k mem junk
  · cases hs

theorem storesNone_of_step {c : Call} (h : Inv s) (hs : step s c = some s') (ht : Truthful s') :
    c.StoresNone s.base := by
  unfold step at hs
  split at hs
  · rename_i hg
    cases hs
    cases c with
    | dup2 k old new => exact fun hst => (h.dup2_spoils hg.1.1 hst).2.not_truthful ht
    | dup3 k old new ce => exact fun hst => (h.dup3_spoils hg.1.1 hst ce).not_truthful ht
    | dupfd k fd arg ce =>
      intro hst
      obtain ⟨i, hi⟩ := h.dupfd_spoils hg.1.1 hst ce
      exact hi.not_truthful ht
    | opn | close | dup | pipe | fork => trivial
  · cases hs

theorem init_inv (h : machine.init s) : Inv s := by
  obtain ⟨⟨-, -, -, -, hnone, -, t, ht, hnext, hempty⟩, hbits, hr⟩ := h
  have h0 : ∀ k u, s.base.files k = some u → k = 0 ∧ u = t := by
    intro k u hu
    cases k with
    | zero => exact ⟨rfl, Option.some.inj (hu.symm.trans ht)⟩
    | succ k =>
      rw [hnone (k + 1) (by omega)] at hu
      cases hu
  refine ⟨⟨hr, fun k u hu i hi => ?_⟩, fun k u hu => ?_⟩
  · obtain ⟨rfl, rfl⟩ := h0 k u hu
    rw [hbits i, hempty i hi]
    simp [FdEntry.empty]
  · obtain ⟨rfl, rfl⟩ := h0 k u hu
    omega

/-- **A run keeps every index in its table and the bitmap truthful exactly when neither `dup2` nor `F_DUPFD` gets as far
as the table.** -/
theorem truthful_iff {l : List Call} (hinit : machine.init s) (hrun : machine.run s l = some s') :
    machine.Always Truthful s l ↔ machine.RunOk (fun s c => c.StoresNone s.base) s l s' :=
  machine.always_iff_runOk (fun _ h => h.toTruthful) (fun _ _ _ h hs hc => inv_of_step h hs hc)
    (fun _ _ _ h hs ht => storesNone_of_step h hs ht) l s s' (init_inv hinit) hrun

/-- The first task, as it starts. -/
def start : Fdt where
  base := ⟨⟨fun _ => none, false⟩, fun _ => none, fun _ => none, 1, fun k => if k = 0 then some ⟨0, fun _ => .empty⟩ else none,
    fun _ => false, []⟩
  openFds _ _ := false
  inRange := true

theorem start_init : machine.init start :=
  ⟨⟨rfl, fun _ => rfl, rfl, fun _ => rfl, fun k hk => if_neg (by omega), rfl, ⟨0, fun _ => .empty⟩, rfl, rfl, fun _ _ => rfl⟩,
    fun _ => rfl, rfl⟩

theorem truthful_iff_fork : ∃ l : List Call, l.length = 5 ∧ machine.Always Truthful start l :=
  have hno : ∀ s, machine.run start [.opn 0 (some 7), .dup 0 0] = some s → ¬Dup2Stores s.base 0 9 3 := by
    intro s h
    cases h
    decide
  ⟨[.opn 0 (some 7), .dup 0 0, .dup2 0 9 3, .fork 0 true fun _ => .empty, .close 1 1], rfl,
    (truthful_iff start_init rfl).2
      ⟨trivial, _, rfl, trivial, _, rfl, hno _ rfl, _, rfl, trivial, _, rfl, trivial, _, rfl, rfl⟩⟩

/-- Descriptor 0 is duplicated to 5, whose bit stays clear. -/
theorem not_truthful : ¬∀ (s s' : Fdt) (l : List Call), machine.init s → machine.run s l = some s' →
    machine.Always Truthful s l := by
  intro h
  have ht := (h start _ [.opn 0 (some 7), .dup2 0 0 5] start_init rfl).2 _ rfl |>.2 _ rfl
  have hbit := (ht.bits 0 _ rfl 5 (by decide)).2 (by decide)
  cases hbit

end FdTable
end Pico
