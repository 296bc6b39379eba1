import Picomimi.Lib.Run
import Picomimi.Lib.Refs
/-!
# TaskShare — what clone shares, and who releases it

`task_fork` shares or copies a task's `files_struct`, `fs_struct` and `sighand_struct` and raises the count of what it
shares; its `signal_struct` comes with the `memcpy` of the task, uncounted.  `reap_zombie` goes by the counts of the signal
structures and frees the other two whatever theirs say, and `do_exit` closes every descriptor of a table it may share.
`shareKept_iff` says which runs come out right all the same.
-/
namespace Pico
namespace Share

open Lib

inductive Kind where
  | files | fs | sighand | signal
deriving DecidableEq

structure Task where
  files : Option Nat
  fs : Option Nat
  sighand : Option Nat
  signal : Option Nat
  zombie : Bool

def Task.ref (task : Task) : Kind → Option Nat
  | .files => task.files
  | .fs => task.fs
  | .sighand => task.sighand
  | .signal => task.signal

/-- The tasks in the order they are made, the counts of the four structures, the `fd_array` of each `files_struct` and the
`f_count` of the open files. -/
structure State where
  ntasks : Nat
  tasks : Nat → Option Task
  pool : Kind → Pool
  table : Nat → List (Option Nat)
  file : Pool

def State.setTask (s : State) (t : Nat) (task : Option Task) : State :=
  { s with tasks := Function.update s.tasks t task }

def State.setPool (s : State) (k : Kind) (p : Pool) : State := { s with pool := Function.update s.pool k p }

/-! ## Fork -/

/-- `CLONE_FILES`, `CLONE_FS` and `CLONE_SIGHAND`. -/
structure Flags where
  files : Bool
  fs : Bool
  sighand : Bool

/-- What `kmalloc` gives each copy. -/
structure Mem where
  files : Option Nat
  fs : Option Nat
  sighand : Option Nat

/-- `files_copy` and `fs_copy`, or the share; a parent without one is dereferenced all the same, and the kernel faults. -/
def forkRef (p : Pool) (old : Option Nat) (share : Bool) (new : Option Nat) : Option (Pool × Option Nat) :=
  match share, old, new with
  | true, some x, _ => some (p.inc x, some x)
  | false, _, none => some (p, none)
  | false, some _, some y => if p.count y = none then some (p.alloc y, some y) else none
  | _, none, _ => none

/-- The signal handlers: a parent may have none, and a copy is then cleared. -/
def forkSighand (p : Pool) (old : Option Nat) (share : Bool) (new : Option Nat) : Option (Pool × Option Nat) :=
  match share, old, new with
  | true, some x, _ => some (p.inc x, some x)
  | true, none, _ => some (p, none)
  | false, _, none => some (p, none)
  | false, _, some y => if p.count y = none then some (p.alloc y, some y) else none

/-- The descriptors `files_copy` copies, each with a reference of its own. -/
def copyTable (s : State) (old new : Option Nat) (share : Bool) : State :=
  match share, old, new with
  | false, some x, some y =>
    { s with table := Function.update s.table y (s.table x), file := (s.table x).reduceOption.foldl Pool.inc s.file }
  | _, _, _ => s

/-- `task_fork`, from the sharing of files on. -/
def fork (s : State) (task : Task) (flags : Flags) (mem : Mem) : Option State :=
  match forkRef (s.pool .files) task.files flags.files mem.files, forkRef (s.pool .fs) task.fs flags.fs mem.fs,
    forkSighand (s.pool .sighand) task.sighand flags.sighand mem.sighand with
  | some (files, x), some (fs, y), some (sighand, z) =>
    let s' := copyTable s task.files mem.files flags.files
    some { ((((s'.setPool .files files).setPool .fs fs).setPool .sighand sighand).setTask s.ntasks
      (some ⟨x, y, z, task.signal, false⟩)) with ntasks := s.ntasks + 1 }
  | _, _, _ => none

/-! ## Exec, exit and reap -/

/-- A structure for a task that has none. -/
def allocIfNull (p : Pool) (old new : Option Nat) : Option (Pool × Option Nat) :=
  match old, new with
  | some x, _ => some (p, some x)
  | none, none => some (p, none)
  | none, some y => if p.count y = none then some (p.alloc y, some y) else none

/-- `do_execve`, its step 10. -/
def exec (s : State) (t : Nat) (task : Task) (sighand signal : Option Nat) : Option State :=
  match allocIfNull (s.pool .sighand) task.sighand sighand, allocIfNull (s.pool .signal) task.signal signal with
  | some (ph, x), some (pg, y) =>
    some (((s.setPool .sighand ph).setPool .signal pg).setTask t (some { task with sighand := x, signal := y }))
  | _, _ => none

/-- Every descriptor of a table is closed, its file put. -/
def closeAll (s : State) (x : Nat) : State :=
  { s with
    table := Function.update s.table x ((s.table x).map fun _ => none)
    file := (s.table x).reduceOption.foldl Pool.dec s.file }

def closeOpt (s : State) : Option Nat → State
  | none => s
  | some x => closeAll s x

/-- `do_exit`. -/
def doExit (s : State) (t : Nat) (task : Task) : State :=
  (closeOpt s task.files).setTask t (some { task with zombie := true })

/-- `atomic_read`, then `atomic_dec_and_test`, then `kfree`. -/
def putRef (p : Pool) : Option Nat → Pool
  | none => p
  | some x => if p.count x = some 0 then p else p.dec x

def freeRef (p : Pool) : Option Nat → Pool
  | none => p
  | some x => p.free x

/-- `reap_zombie`. -/
def reap (s : State) (t : Nat) (task : Task) : State :=
  let s₁ := (s.setPool .signal (putRef (s.pool .signal) task.signal)).setPool .sighand
    (putRef (s.pool .sighand) task.sighand)
  let s₂ := closeOpt s₁ task.files
  ((s₂.setPool .files (freeRef (s.pool .files) task.files)).setPool .fs (freeRef (s.pool .fs) task.fs)).setTask t none

inductive Label where
  | fork (t : Nat) (flags : Flags) (mem : Mem)
  | exec (t : Nat) (sighand signal : Option Nat)
  | open (t fd f : Nat)             -- `fd_install` of a new file
  | close (t fd : Nat)              -- `do_close`
  | exit (t : Nat)
  | reap (t : Nat)

def running (s : State) (t : Nat) : Option Task := (s.tasks t).filter fun task => !task.zombie

def fdInstall (s : State) (x fd f : Nat) : Option State :=
  if (s.table x)[fd]? = some none ∧ s.file.count f = none then
    some { s with table := Function.update s.table x ((s.table x).set fd (some f)), file := s.file.alloc f }
  else none

def doClose (s : State) (x fd : Nat) : Option State :=
  match (s.table x)[fd]? with
  | some (some f) => some { s with table := Function.update s.table x ((s.table x).set fd none), file := s.file.dec f }
  | _ => none

def step (s : State) : Label → Option State
  | .fork t flags mem => (running s t).bind fun task => fork s task flags mem
  | .exec t sighand signal => (running s t).bind fun task => exec s t task sighand signal
  | .open t fd f => ((running s t).bind Task.files).bind fun x => fdInstall s x fd f
  | .close t fd => ((running s t).bind Task.files).bind fun x => doClose s x fd
  | .exit t => (running s t).map fun task => doExit s t task
  | .reap t => (s.tasks t).bind fun task => if task.zombie then some (reap s t task) else none

def noPool : Pool := ⟨fun _ => none, false⟩

/-- `init_task`, with its `files_alloc` and `fs_alloc`. -/
def boot (files fs : Nat) : State where
  ntasks := 1
  tasks := Function.update (fun _ => none) 0 (some ⟨some files, some fs, none, none, false⟩)
  pool
    | .files => noPool.alloc files
    | .fs => noPool.alloc fs
    | _ => noPool
  table _ := List.replicate 64 none
  file := noPool

def machine : Machine State Label where
  init s := ∃ files fs, s = boot files fs
  step := step

/-- An unreaped task refers to `x`. -/
def Refs (s : State) (k : Kind) (x : Nat) : Prop := ∃ t task, s.tasks t = some task ∧ task.ref k = some x

/-- Another than `t` does. -/
def Others (s : State) (t : Nat) (k : Kind) (x : Nat) : Prop :=
  ∃ u task, u ≠ t ∧ s.tasks u = some task ∧ task.ref k = some x

/-- **Each structure is there exactly while an unreaped task refers to it**, and none is touched after it is freed. -/
def Right (s : State) : Prop := ∀ k, (s.pool k).Sound (Refs s k)

/-- A task that has not exited shares the table with `t`. -/
def SharedLive (s : State) (t x : Nat) : Prop :=
  ∃ u task, u ≠ t ∧ s.tasks u = some task ∧ task.zombie = false ∧ task.files = some x

/-- The exit of one task leaves the descriptors of those that share its table, and their files. -/
def Intact (s : State) (a : Label) (s' : State) : Prop :=
  match a with
  | .exit t => ∀ task ∈ s.tasks t, ∀ x ∈ task.files, SharedLive s t x →
      s'.table x = s.table x ∧ ∀ f, some f ∈ s.table x → s'.file.count f = s.file.count f
  | _ => True

/-- **What a step must keep.** -/
def Kept (s : State) (a : Label) : Prop := ∀ s', step s a = some s' → Right s' ∧ Intact s a s'

/-- **The exits and reaps that come out right**: of a task whose table is not shared with one that goes on, or has nothing
open; and of one whose `files_struct`, `fs_struct` and `signal_struct` no other has. -/
def EndsAlone (s : State) : Label → Prop
  | .exit t => ∀ task ∈ running s t, ∀ x ∈ task.files, SharedLive s t x → ∀ e ∈ s.table x, e = none
  | .reap t => ∀ task ∈ s.tasks t, task.zombie = true → ∀ k, k ≠ .sighand → ∀ x ∈ task.ref k, ¬Others s t k x
  | _ => True

/-! ## What each call does to one pool -/

section Pools

variable {p p' : Pool} {R : Nat → Prop} {refs : List Nat} {old new r : Option Nat} {share : Bool}

theorem sound_forkRef (h : p.Sound R) (hold : ∀ x ∈ old, R x) (hr : forkRef p old share new = some (p', r)) :
    p'.Sound fun x => R x ∨ r = some x := by
  unfold forkRef at hr
  split at hr
  · cases hr
    refine (h.inc (hold _ rfl)).congr fun y => (or_iff_left_of_imp ?_).symm
    rintro hy
    exact hold y hy
  · cases hr
    exact h.congr fun y => (or_iff_left nofun).symm
  · rename_i y
    split at hr
    · cases hr
      refine (h.alloc y).congr fun z => ?_
      rw [Option.some.injEq, eq_comm]
    · cases hr
  · cases hr

theorem balanced_forkSighand (h : p.Balanced refs) (hold : ∀ x ∈ old, x ∈ refs)
    (hr : forkSighand p old share new = some (p', r)) : p'.Balanced (r.toList ++ refs) := by
  unfold forkSighand at hr
  split at hr
  · cases hr
    exact h.inc (hold _ rfl)
  · cases hr
    exact h
  · cases hr
    exact h
  · split at hr
    · cases hr
      exact h.alloc ‹_›
    · cases hr

theorem allocIfNull_some {x : Nat} (hr : allocIfNull p (some x) new = some (p', r)) : p' = p ∧ r = some x := by
  cases hr
  exact ⟨rfl, rfl⟩

theorem sound_allocIfNull (h : p.Sound R) (hr : allocIfNull p none new = some (p', r)) :
    p'.Sound fun x => R x ∨ r = some x := by
  unfold allocIfNull at hr
  split at hr
  · contradiction
  · cases hr
    exact h.congr fun y => (or_iff_left nofun).symm
  · rename_i y _
    split at hr
    · cases hr
      refine (h.alloc y).congr fun z => ?_
      rw [Option.some.injEq, eq_comm]
    · cases hr

theorem balanced_allocIfNull (h : p.Balanced refs) (hr : allocIfNull p none new = some (p', r)) :
    p'.Balanced (r.toList ++ refs) := by
  unfold allocIfNull at hr
  split at hr
  · contradiction
  · cases hr
    exact h
  · split at hr
    · cases hr
      exact h.alloc ‹_›
    · cases hr

theorem sound_freeRef_iff (h : p.Sound fun x => R x ∨ old = some x) :
    (freeRef p old).Sound R ↔ ∀ x ∈ old, ¬R x := by
  cases old with
  | none =>
    refine iff_of_true (h.congr fun x => or_iff_left nofun) nofun
  | some x =>
    have hx : p.Sound fun y => R y ∨ y = x := h.congr fun y => by rw [Option.some.injEq, eq_comm (a := x)]
    refine hx.free_iff.trans ⟨fun hno y hy => ?_, fun hno => hno x rfl⟩
    rw [← Option.some.inj hy]
    exact hno

/-- With counts of 1 a put is a free. -/
theorem putRef_of_one (h : ∀ x ∈ old, p.count x = some 1) : putRef p old = freeRef p old := by
  cases old with
  | none => rfl
  | some x =>
    have h1 := h x rfl
    rw [putRef, h1, if_neg (by decide)]
    exact Pool.dec_eq_free h1

theorem balanced_putRef (h : p.Balanced (old.toList ++ refs)) : (putRef p old).Balanced refs := by
  cases old with
  | none => exact h
  | some x =>
    have hc := h.eq_some_of_mem (List.mem_append_left _ (List.mem_singleton.2 rfl) : x ∈ (some x).toList ++ refs)
    have hpos : 0 < ((some x).toList ++ refs).count x :=
      List.count_pos_iff.2 (List.mem_append_left _ (List.mem_singleton.2 rfl))
    rw [putRef, if_neg ?_]
    · exact h.dec
    · rw [hc, Option.some.injEq]
      omega

end Pools

/-! ## Who refers to what -/

variable {s s' : State} {t x : Nat} {k : Kind} {task : Task}

theorem running_iff : running s t = some task ↔ s.tasks t = some task ∧ task.zombie = false := by
  rw [running, Option.filter_eq_some_iff]
  cases task.zombie <;> simp

theorem refs_iff (h : s.tasks t = some task) (k : Kind) (x : Nat) :
    Refs s k x ↔ Others s t k x ∨ task.ref k = some x := by
  constructor
  · rintro ⟨u, task', hu, hk⟩
    by_cases hut : u = t
    · subst hut
      rw [h, Option.some.injEq] at hu
      exact .inr (hu ▸ hk)
    · exact .inl ⟨u, task', hut, hu, hk⟩
  · rintro (⟨u, task', -, hu, hk⟩ | hk)
    · exact ⟨u, task', hu, hk⟩
    · exact ⟨t, task, h, hk⟩

theorem refs_of_none (h : s.tasks t = none) (k : Kind) (x : Nat) : Refs s k x ↔ Others s t k x := by
  constructor
  · rintro ⟨u, task', hu, hk⟩
    refine ⟨u, task', fun hut => ?_, hu, hk⟩
    rw [hut, h] at hu
    cases hu
  · rintro ⟨u, task', -, hu, hk⟩
    exact ⟨u, task', hu, hk⟩

/-- The references after the entry of `t` is set. -/
theorem refs_set (x? : Option Task) (h : s'.tasks = Function.update s.tasks t x?) (k : Kind) (x : Nat) :
    Refs s' k x ↔ Others s t k x ∨ ∃ task ∈ x?, task.ref k = some x := by
  constructor
  · rintro ⟨u, task', hu, hk⟩
    by_cases hut : u = t
    · subst hut
      rw [h, Function.update_self] at hu
      exact .inr ⟨task', hu, hk⟩
    · rw [h, Function.update_of_ne hut] at hu
      exact .inl ⟨u, task', hut, hu, hk⟩
  · rintro (⟨u, task', hut, hu, hk⟩ | ⟨task', ht, hk⟩)
    · exact ⟨u, task', by rw [h, Function.update_of_ne hut, hu], hk⟩
    · exact ⟨t, task', by rw [h, Function.update_self]; exact ht, hk⟩

/-- The references to `sighand_struct`s, with repetitions. -/
def State.handlersOf (s : State) (t : Nat) : List Nat := ((s.tasks t).bind Task.sighand).toList

def State.handlers (s : State) : List Nat := gather s.handlersOf s.ntasks

/-- **What every run of such steps keeps.** -/
structure Inv (s : State) : Prop where
  right : Right s
  sighand : (s.pool .sighand).Balanced s.handlers
  signal : ∀ x c, (s.pool .signal).count x = some c → c = 1
  beyond : ∀ t, s.ntasks ≤ t → s.tasks t = none

theorem lt_of_task (h : ∀ t, s.ntasks ≤ t → s.tasks t = none) (ht : s.tasks t = some task) : t < s.ntasks := by
  by_contra hle
  rw [h t (Nat.le_of_not_lt hle)] at ht
  cases ht

theorem Inv.lt (h : Inv s) (ht : s.tasks t = some task) : t < s.ntasks := lt_of_task h.beyond ht

theorem handlersOf_some (ht : s.tasks t = some task) : s.handlersOf t = task.sighand.toList := by
  rw [State.handlersOf, ht]
  rfl

theorem mem_handlers (h : ∀ t, s.ntasks ≤ t → s.tasks t = none) : x ∈ s.handlers ↔ Refs s .sighand x := by
  rw [State.handlers, mem_gather]
  constructor
  · rintro ⟨t, -, hx⟩
    rw [State.handlersOf, Option.mem_toList] at hx
    obtain ⟨task, ht, hx⟩ := Option.bind_eq_some_iff.1 hx
    exact ⟨t, task, ht, hx⟩
  · rintro ⟨t, task, ht, hx⟩
    refine ⟨t, lt_of_task h ht, ?_⟩
    rw [handlersOf_some ht, Option.mem_toList]
    exact hx

/-- **One task's entry changes.** -/
theorem handlers_set (x? : Option Task) (ht : t < s.ntasks) (hn : s'.ntasks = s.ntasks)
    (htasks : s'.tasks = Function.update s.tasks t x?) :
    (s.handlersOf t ++ s'.handlers).Perm ((x?.bind Task.sighand).toList ++ s.handlers) := by
  have hself : s'.handlersOf t = (x?.bind Task.sighand).toList := by
    rw [State.handlersOf, htasks, Function.update_self]
  rw [State.handlers, hn, ← hself]
  refine gather_set ht fun u _ hut => ?_
  rw [State.handlersOf, htasks, Function.update_of_ne hut]
  rfl

/-! ## The calls that release nothing -/

theorem copyTable_pool (s : State) (old new : Option Nat) (share : Bool) : (copyTable s old new share).pool = s.pool := by
  unfold copyTable
  split <;> rfl

theorem copyTable_tasks (s : State) (old new : Option Nat) (share : Bool) :
    (copyTable s old new share).tasks = s.tasks := by
  unfold copyTable
  split <;> rfl

/-- What `task_fork` does to the tasks and the pools. -/
theorem fork_spec {flags : Flags} {mem : Mem} (hs : fork s task flags mem = some s') :
    ∃ x y z, s'.ntasks = s.ntasks + 1 ∧
      s'.tasks = Function.update s.tasks s.ntasks (some ⟨x, y, z, task.signal, false⟩) ∧
      forkRef (s.pool .files) task.files flags.files mem.files = some (s'.pool .files, x) ∧
      forkRef (s.pool .fs) task.fs flags.fs mem.fs = some (s'.pool .fs, y) ∧
      forkSighand (s.pool .sighand) task.sighand flags.sighand mem.sighand = some (s'.pool .sighand, z) ∧
      s'.pool .signal = s.pool .signal := by
  unfold fork at hs
  split at hs
  · rename_i files x fs y sighand z hfiles hfs hsighand
    cases hs
    refine ⟨x, y, z, rfl, ?_, hfiles, hfs, hsighand, ?_⟩
    · rw [← copyTable_tasks s task.files mem.files flags.files]
      rfl
    · rw [← copyTable_pool s task.files mem.files flags.files]
      rfl
  · cases hs

/-- A new task's handlers. -/
theorem handlers_new {task' : Task} (hn : s'.ntasks = s.ntasks + 1)
    (htasks : s'.tasks = Function.update s.tasks s.ntasks (some task')) :
    s'.handlers = s.handlers ++ task'.sighand.toList := by
  have hself : s'.tasks s.ntasks = some task' := by rw [htasks, Function.update_self]
  rw [State.handlers, hn, gather, handlersOf_some hself]
  congr 1
  refine gather_congr fun u hu => ?_
  rw [State.handlersOf, htasks, Function.update_of_ne (Nat.ne_of_lt hu)]
  rfl

theorem Inv.fork {flags : Flags} {mem : Mem} (h : Inv s) (ht : s.tasks t = some task)
    (hs : fork s task flags mem = some s') : Inv s' := by
  obtain ⟨x, y, z, hn, htasks, hfiles, hfs, hsighand, hsignal⟩ := fork_spec hs
  have hmine : ∀ k, ∀ w ∈ task.ref k, Refs s k w := fun k w hw => ⟨t, task, ht, hw⟩
  have hb := balanced_forkSighand h.sighand (fun w hw => (mem_handlers h.beyond).2 (hmine .sighand w hw)) hsighand
  refine ⟨fun k => ?_, ?_, ?_, fun u hu => ?_⟩
  · -- the child's references are new, the others are as they were
    have hR : ∀ w, Refs s' k w ↔ Refs s k w ∨ Task.ref ⟨x, y, z, task.signal, false⟩ k = some w := fun w => by
      rw [refs_set _ htasks, refs_of_none (h.beyond _ (Nat.le_refl _))]
      simp
    refine Pool.Sound.congr ?_ fun w => (hR w).symm
    cases k with
    | files => exact sound_forkRef (h.right .files) (hmine .files) hfiles
    | fs => exact sound_forkRef (h.right .fs) (hmine .fs) hfs
    | sighand =>
      refine hb.sound.congr fun w => ?_
      rw [List.mem_append, Option.mem_toList, mem_handlers h.beyond, or_comm]
      exact Iff.rfl
    | signal =>
      rw [hsignal]
      exact (h.right .signal).congr fun w => (or_iff_left_of_imp (hmine .signal w)).symm
  · rw [handlers_new hn htasks]
    exact hb.perm List.perm_append_comm
  · rw [hsignal]
    exact h.signal
  · rw [hn] at hu
    rw [htasks, Function.update_of_ne (Nat.ne_of_gt hu)]
    exact h.beyond u (Nat.le_of_succ_le hu)

/-- What a task keeps or is given. -/
theorem sound_given {p p' : Pool} {old new r : Option Nat} (h : p.Sound (Refs s k)) (ht : s.tasks t = some task)
    (hold : task.ref k = old) (hr : allocIfNull p old new = some (p', r)) :
    p'.Sound fun w => Others s t k w ∨ r = some w := by
  have hsplit : p.Sound fun w => Others s t k w ∨ old = some w := h.congr fun w => by rw [refs_iff ht, hold]
  cases old with
  | some x =>
    obtain ⟨rfl, rfl⟩ := allocIfNull_some hr
    exact hsplit
  | none => exact sound_allocIfNull (hsplit.congr fun w => or_iff_left nofun) hr

theorem balanced_given {p p' : Pool} {old new r : Option Nat} {refs refs' : List Nat} (h : p.Balanced refs)
    (hr : allocIfNull p old new = some (p', r)) (hperm : (old.toList ++ refs').Perm (r.toList ++ refs)) :
    p'.Balanced refs' := by
  cases old with
  | some x =>
    obtain ⟨rfl, rfl⟩ := allocIfNull_some hr
    exact h.perm ((List.perm_append_left_iff _).1 hperm).symm
  | none => exact (balanced_allocIfNull h hr).perm hperm.symm

theorem ones_given {p p' : Pool} {old new r : Option Nat} (h : ∀ x c, p.count x = some c → c = 1)
    (hr : allocIfNull p old new = some (p', r)) : ∀ x c, p'.count x = some c → c = 1 := by
  unfold allocIfNull at hr
  split at hr
  · cases hr
    exact h
  · cases hr
    exact h
  · rename_i y
    split at hr
    · cases hr
      intro x c hc
      by_cases hxy : x = y
      · subst hxy
        simp only [Pool.alloc, Function.update_self, Option.some.injEq] at hc
        exact hc.symm
      · simp only [Pool.alloc, Function.update_of_ne hxy] at hc
        exact h x c hc
    · cases hr

/-- Nothing is beyond the tasks there are, whatever becomes of one of them. -/
theorem Inv.beyond_set (h : Inv s) (ht : s.tasks t = some task) {x? : Option Task} :
    ∀ u, s.ntasks ≤ u → (Function.update s.tasks t x?) u = none := by
  intro u hu
  rw [Function.update_of_ne (Nat.ne_of_gt (Nat.lt_of_lt_of_le (h.lt ht) hu))]
  exact h.beyond u hu

theorem Inv.exec {sighand signal : Option Nat} (h : Inv s) (ht : s.tasks t = some task)
    (hs : exec s t task sighand signal = some s') : Inv s' := by
  unfold Share.exec at hs
  split at hs
  · rename_i ph x pg y hx hy
    cases hs
    refine ⟨fun k => ?_, ?_, ones_given h.signal hy, h.beyond_set ht⟩
    · refine Pool.Sound.congr ?_ fun w => (refs_set _ rfl k w).symm
      simp only [Option.mem_def, Option.some.injEq, exists_eq_left']
      cases k with
      | files => exact (h.right .files).congr fun w => refs_iff ht .files w
      | fs => exact (h.right .fs).congr fun w => refs_iff ht .fs w
      | sighand => exact sound_given (h.right .sighand) ht rfl hx
      | signal => exact sound_given (h.right .signal) ht rfl hy
    · refine balanced_given h.sighand hx ?_
      rw [← handlersOf_some ht]
      exact handlers_set (some { task with sighand := x, signal := y }) (h.lt ht) rfl rfl
  · cases hs

/-- A call that leaves the pools and what every task refers to. -/
theorem Inv.of_eq (h : Inv s) (hn : s'.ntasks = s.ntasks) (ht : s'.tasks = s.tasks) (hp : s'.pool = s.pool) : Inv s' := by
  have hR : ∀ k x, Refs s k x ↔ Refs s' k x := fun k x => by rw [Refs, Refs, ht]
  have hh : s'.handlers = s.handlers := by
    rw [State.handlers, State.handlers, hn]
    exact gather_congr fun u _ => by rw [State.handlersOf, State.handlersOf, ht]
  refine ⟨fun k => ?_, ?_, ?_, ?_⟩
  · rw [hp]
    exact (h.right k).congr (hR k)
  · rw [hp, hh]
    exact h.sighand
  · rw [hp]
    exact h.signal
  · rw [hn, ht]
    exact h.beyond

theorem closeOpt_tasks (s : State) (x : Option Nat) : (closeOpt s x).tasks = s.tasks := by cases x <;> rfl

theorem closeOpt_pool (s : State) (x : Option Nat) : (closeOpt s x).pool = s.pool := by cases x <;> rfl

theorem closeOpt_ntasks (s : State) (x : Option Nat) : (closeOpt s x).ntasks = s.ntasks := by cases x <;> rfl

theorem Inv.closeOpt (h : Inv s) (x : Option Nat) : Inv (closeOpt s x) :=
  h.of_eq (closeOpt_ntasks s x) (closeOpt_tasks s x) (closeOpt_pool s x)

/-- A task that becomes a zombie keeps its references. -/
theorem Inv.bury (h : Inv s) (ht : s.tasks t = some task) : Inv (s.setTask t (some { task with zombie := true })) := by
  refine ⟨fun k => (h.right k).congr fun x => ?_, h.sighand.perm ?_, h.signal, h.beyond_set ht⟩
  · rw [refs_iff ht, refs_set _ rfl]
    simp only [Option.mem_def, Option.some.injEq, exists_eq_left']
    cases k <;> exact Iff.rfl
  · have htasks : (s.setTask t (some { task with zombie := true })).tasks =
        Function.update s.tasks t (some { task with zombie := true }) := rfl
    have hntasks : (s.setTask t (some { task with zombie := true })).ntasks = s.ntasks := rfl
    have hperm := handlers_set (some { task with zombie := true }) (h.lt ht) hntasks htasks
    rw [handlersOf_some ht] at hperm
    exact ((List.perm_append_left_iff _).1 hperm).symm

theorem Inv.doExit (h : Inv s) (ht : s.tasks t = some task) : Inv (doExit s t task) :=
  (h.closeOpt task.files).bury (by rw [closeOpt_tasks, ht])

theorem Inv.fdInstall {fd f : Nat} (h : Inv s) (hs : fdInstall s x fd f = some s') : Inv s' := by
  unfold Share.fdInstall at hs
  split at hs
  · cases hs
    exact h.of_eq rfl rfl rfl
  · cases hs

theorem Inv.doClose {fd : Nat} (h : Inv s) (hs : doClose s x fd = some s') : Inv s' := by
  unfold Share.doClose at hs
  split at hs
  · cases hs
    exact h.of_eq rfl rfl rfl
  · cases hs

/-! ## Exit and reap -/

/-- **An exit leaves a shared table alone exactly when nothing is open in it.** -/
theorem intact_exit_iff (ht : s.tasks t = some task) :
    Intact s (.exit t) (doExit s t task) ↔ ∀ x ∈ task.files, SharedLive s t x → ∀ e ∈ s.table x, e = none := by
  constructor
  · intro hi x hx hsh e he
    have htable := (hi task ht x hx hsh).1
    rw [doExit, Option.mem_def.1 hx] at htable
    have hmap : (s.table x).map (fun _ => none) = s.table x := (Function.update_self x _ s.table).symm.trans htable
    rw [← hmap, List.mem_map] at he
    obtain ⟨_, -, rfl⟩ := he
    rfl
  · intro hnone task' ht' x hx hsh
    rw [Option.mem_def, ht, Option.some.injEq] at ht'
    subst ht'
    have hempty := hnone x hx hsh
    rw [doExit, Option.mem_def.1 hx]
    refine ⟨(Function.update_self x _ s.table).trans ?_, fun f hf => nomatch hempty _ hf⟩
    conv_rhs => rw [← List.map_id (s.table x)]
    exact List.map_congr_left fun e he => (hempty e he).symm

/-- What `reap_zombie` does to the tasks and the pools. -/
theorem reap_tasks (s : State) (t : Nat) (task : Task) : (reap s t task).tasks = Function.update s.tasks t none := by
  rw [reap]
  cases task.files <;> rfl

theorem reap_ntasks (s : State) (t : Nat) (task : Task) : (reap s t task).ntasks = s.ntasks := by
  rw [reap]
  cases task.files <;> rfl

theorem reap_pool (s : State) (t : Nat) (task : Task) (k : Kind) :
    (reap s t task).pool k = match k with
      | .files => freeRef (s.pool .files) task.files
      | .fs => freeRef (s.pool .fs) task.fs
      | .sighand => putRef (s.pool .sighand) task.sighand
      | .signal => putRef (s.pool .signal) task.signal := by
  rw [reap]
  cases k <;> cases task.files <;> rfl

theorem ones_freeRef {p : Pool} {old : Option Nat} (h : ∀ x c, p.count x = some c → c = 1) :
    ∀ x c, (freeRef p old).count x = some c → c = 1 := by
  cases old with
  | none => exact h
  | some y =>
    intro x c hc
    by_cases hxy : x = y
    · subst hxy
      rw [freeRef, Pool.free_count_self] at hc
      cases hc
    · rw [freeRef, Pool.free_count_of_ne p hxy] at hc
      exact h x c hc

/-- The one reference to a `signal_struct` counts as many as there are. -/
theorem Inv.putRef_signal (h : Inv s) (ht : s.tasks t = some task) :
    putRef (s.pool .signal) task.signal = freeRef (s.pool .signal) task.signal := by
  refine putRef_of_one fun x hx => ?_
  obtain ⟨c, hc⟩ := (h.right .signal).eq_some ⟨t, task, ht, hx⟩
  rw [hc, h.signal x c hc]

theorem Inv.handlers_reap (h : Inv s) (ht : s.tasks t = some task) :
    (putRef (s.pool .sighand) task.sighand).Balanced (reap s t task).handlers := by
  refine balanced_putRef (h.sighand.perm ?_)
  have hperm := handlers_set none (h.lt ht) (reap_ntasks s t task) (reap_tasks s t task)
  rw [handlersOf_some ht] at hperm
  exact hperm.symm

theorem refs_reap (s : State) (t : Nat) (task : Task) (k : Kind) (x : Nat) :
    Refs (reap s t task) k x ↔ Others s t k x := by
  rw [refs_set _ (reap_tasks s t task)]
  simp

theorem reap_beyond (h : Inv s) (ht : s.tasks t = some task) :
    ∀ u, (reap s t task).ntasks ≤ u → (reap s t task).tasks u = none := by
  rw [reap_ntasks, reap_tasks]
  exact h.beyond_set ht

/-- But for the signal handlers, what a reap lets go of it frees. -/
theorem Inv.reap_frees (h : Inv s) (ht : s.tasks t = some task) (hk : k ≠ .sighand) :
    (reap s t task).pool k = freeRef (s.pool k) (task.ref k) := by
  rw [reap_pool]
  cases k with
  | files => rfl
  | fs => rfl
  | sighand => exact absurd rfl hk
  | signal => exact h.putRef_signal ht

/-- **A reap is right exactly when no other task refers to what it frees.** -/
theorem right_reap_iff (h : Inv s) (ht : s.tasks t = some task) :
    Right (reap s t task) ↔ ∀ k, k ≠ .sighand → ∀ x ∈ task.ref k, ¬Others s t k x := by
  have hfree : ∀ k, k ≠ .sighand → (((reap s t task).pool k).Sound (Refs (reap s t task) k) ↔
      ∀ x ∈ task.ref k, ¬Others s t k x) := fun k hk => by
    rw [h.reap_frees ht hk, Pool.sound_congr (refs_reap s t task k)]
    exact sound_freeRef_iff ((h.right k).congr fun x => refs_iff ht k x)
  constructor
  · exact fun hr k hk => (hfree k hk).1 (hr k)
  · intro hno k
    by_cases hk : k = .sighand
    · subst hk
      rw [reap_pool]
      exact (h.handlers_reap ht).sound.congr fun x => mem_handlers (reap_beyond h ht)
    · exact (hfree k hk).2 (hno k hk)

theorem Inv.reap (h : Inv s) (ht : s.tasks t = some task) (hright : Right (reap s t task)) : Inv (reap s t task) := by
  refine ⟨hright, ?_, ?_, reap_beyond h ht⟩
  · rw [reap_pool]
    exact h.handlers_reap ht
  · rw [h.reap_frees ht (by decide : Kind.signal ≠ .sighand)]
    exact ones_freeRef h.signal

/-! ## Runs -/

theorem Inv.step {a : Label} (h : Inv s) (hok : EndsAlone s a) (hs : step s a = some s') : Inv s' := by
  cases a with
  | fork t flags mem =>
    obtain ⟨task, hrun, hs⟩ := Option.bind_eq_some_iff.1 hs
    exact h.fork (running_iff.1 hrun).1 hs
  | exec t sighand signal =>
    obtain ⟨task, hrun, hs⟩ := Option.bind_eq_some_iff.1 hs
    exact h.exec (running_iff.1 hrun).1 hs
  | «open» t fd f =>
    obtain ⟨x, -, hs⟩ := Option.bind_eq_some_iff.1 hs
    exact h.fdInstall hs
  | close t fd =>
    obtain ⟨x, -, hs⟩ := Option.bind_eq_some_iff.1 hs
    exact h.doClose hs
  | exit t =>
    obtain ⟨task, hrun, rfl⟩ := Option.map_eq_some_iff.1 hs
    exact h.doExit (running_iff.1 hrun).1
  | reap t =>
    obtain ⟨task, ht, hs⟩ := Option.bind_eq_some_iff.1 hs
    split at hs
    · rename_i hz
      cases hs
      exact h.reap ht ((right_reap_iff h ht).2 (hok task ht hz))
    · cases hs

theorem kept_iff_endsAlone (s : State) (a : Label) (h : Inv s) : Kept s a ↔ EndsAlone s a := by
  constructor
  · intro hkept
    cases a with
    | exit t =>
      intro task hrun
      have ht := (running_iff.1 hrun).1
      refine (intact_exit_iff ht).1 (hkept _ ?_).2
      rw [step, Option.mem_def.1 hrun]
      rfl
    | reap t =>
      intro task ht hz
      refine (right_reap_iff h ht).1 (hkept _ ?_).1
      rw [step, Option.mem_def.1 ht]
      exact if_pos hz
    | _ => trivial
  · intro hok s' hs
    refine ⟨(h.step hok hs).right, ?_⟩
    cases a with
    | exit t =>
      obtain ⟨task, hrun, rfl⟩ := Option.map_eq_some_iff.1 hs
      exact (intact_exit_iff (running_iff.1 hrun).1).2 (hok task hrun)
    | _ => trivial

theorem Inv.start (h : machine.init s) : Inv s := by
  obtain ⟨files, fs, rfl⟩ := h
  have hempty : noPool.Sound fun _ => False := ⟨rfl, fun _ => iff_of_false nofun id⟩
  have hR : ∀ k x, Refs (boot files fs) k x ↔ Task.ref ⟨some files, some fs, none, none, false⟩ k = some x := by
    intro k x
    rw [refs_set (s := { boot files fs with tasks := fun _ => none }) (some ⟨some files, some fs, none, none, false⟩) rfl]
    simp [Others]
  refine ⟨fun k => Pool.Sound.congr ?_ fun x => (hR k x).symm, ⟨rfl, fun x => rfl⟩, nofun, fun t ht => ?_⟩
  · cases k with
    | files => exact (hempty.alloc files).congr fun x => by simp [Task.ref, eq_comm]
    | fs => exact (hempty.alloc fs).congr fun x => by simp [Task.ref, eq_comm]
    | sighand => exact hempty.congr fun x => by simp [Task.ref]
    | signal => exact hempty.congr fun x => by simp [Task.ref]
  · exact Function.update_of_ne (Nat.pos_iff_ne_zero.1 ht) _ fun _ => none

/-- **Shared structures end with their last user** exactly when each reap is of a task whose `files_struct`, `fs_struct`
and `signal_struct` no other has, and each exit of one whose table no one goes on with, or that has nothing open. -/
theorem shareKept_iff (l : List Label) (s s' : State) (hinit : machine.init s) :
    machine.RunOk Kept s l s' ↔ machine.RunOk EndsAlone s l s' :=
  machine.runOk_iff kept_iff_endsAlone (fun _ _ _ h hok hs => h.step hok hs) l s s' (Inv.start hinit)

/-- A plain fork that exits and is reaped, with a file open on both sides. -/
theorem shareKept_fork : ∃ s', machine.RunOk Kept (boot 0 0)
    [.open 0 0 7, .fork 0 ⟨false, false, false⟩ ⟨some 1, some 1, some 1⟩, .exit 1, .reap 1] s' := by
  refine ⟨_, (shareKept_iff _ _ _ ⟨0, 0, rfl⟩).2
    ⟨trivial, _, rfl, trivial, _, rfl, ?_, _, rfl, ?_, _, rfl, rfl⟩⟩
  · rintro task ht x hx ⟨u, task', hu1, hu, -, hux⟩
    cases ht
    cases hx
    by_cases hu0 : u = 0
    · subst hu0
      cases hu
      cases hux
    · simp [boot, State.setTask, State.setPool, copyTable, hu0, hu1] at hu
  · rintro task ht - k - x hx ⟨u, task', hu1, hu, hux⟩
    cases ht
    by_cases hu0 : u = 0
    · subst hu0
      cases hu
      cases k <;> cases hx <;> cases hux
    · simp [boot, State.setTask, State.setPool, copyTable, doExit, closeOpt, closeAll, hu0, hu1] at hu

/-- **The exit of one sharer closes the other's descriptors.** -/
theorem not_shareKept : ¬∀ l s s', machine.init s → machine.run s l = some s' → machine.RunOk Kept s l s' := by
  intro h
  have hrun := h [.open 0 0 7, .fork 0 ⟨true, false, false⟩ ⟨none, some 1, some 1⟩, .exit 1] (boot 0 0) _ ⟨0, 0, rfl⟩ rfl
  obtain ⟨-, s₁, hs₁, -, s₂, hs₂, hexit, -⟩ := hrun
  cases hs₁
  cases hs₂
  have htable := ((hexit _ rfl).2 _ rfl 0 rfl ⟨0, _, Nat.zero_ne_one, rfl, rfl, rfl⟩).1
  exact absurd htable (by decide)

end Share
end Pico
