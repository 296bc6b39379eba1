import Mathlib.Logic.Function.Basic
import Picomimi.Lib.Run
/-!
# MmLife — who frees an address space

`mm_alloc` sets `mm_users` and `mm_count` to 1.  `CLONE_VM` raises `mm_users`; `mm_free`, which exec and `reap_zombie` call,
lowers `mm_count` and goes by it, so that the first of several sharers to let go frees the `mm_struct` and its top-level
table.  The tables below it are never freed, and an exec that fails behind the point of no return frees nothing.
`lifeKept_iff` says which runs do better.
-/
namespace Pico
namespace MmLife

open Lib

/-- `mm_struct_t`: its counts, its top-level table, and its areas. -/
structure Mm where
  users : Int
  count : Int
  pgd : Nat
  mmap : List (Nat × Nat)

structure Task where
  mm : Option Nat
  active : Option Nat       -- `active_mm`
  zombie : Bool

/-- The tasks and the `mm_struct`s by address, and which of them a page-table page belongs to. -/
structure State where
  tasks : Nat → Option Task
  mms : Nat → Option Mm
  owner : Nat → Option Nat

def State.setTask (s : State) (t : Nat) (task : Option Task) : State :=
  { s with tasks := Function.update s.tasks t task }

/-- What `kmalloc` and `pmm_alloc_page` return is not in use. -/
def Fresh (s : State) (m pgd : Nat) (frames : List Nat) : Prop :=
  (s.mms m).isNone = true ∧ s.owner pgd = none ∧ pgd ∉ frames ∧ ∀ p ∈ frames, s.owner p = none

instance (s : State) (m pgd : Nat) (frames : List Nat) : Decidable (Fresh s m pgd frames) :=
  inferInstanceAs (Decidable (_ ∧ _ ∧ _ ∧ _))

/-- Page tables below the top level. -/
def State.addTables (s : State) (m : Nat) (frames : List Nat) : State :=
  { s with owner := fun p => if p ∈ frames then some m else s.owner p }

/-- `mm_alloc`, and the areas and tables the new space is given. -/
def State.mmAlloc (s : State) (m pgd : Nat) (frames : List Nat) (mmap : List (Nat × Nat)) : State :=
  let s' : State := { s with
    mms := Function.update s.mms m (some ⟨1, 1, pgd, mmap⟩)
    owner := Function.update s.owner pgd (some m) }
  s'.addTables m frames

/-- `mm_free`; memory that is not an `mm_struct`'s is not looked at. -/
def mmFree (s : State) (m : Nat) : State :=
  match s.mms m with
  | none => s
  | some x =>
    if x.count - 1 = 0 then
      { s with mms := Function.update s.mms m none, owner := Function.update s.owner x.pgd none }
    else { s with mms := Function.update s.mms m (some { x with count := x.count - 1 }) }

def mmFreeOpt (s : State) : Option Nat → State
  | none => s
  | some m => mmFree s m

inductive Label where
  | fork (t child : Nat) (mem : Option (Nat × Nat × List Nat))      -- what `mm_copy` gets, if it does
  | clone (t child : Nat)                                           -- with `CLONE_VM`
  | create (t child : Nat)                                          -- `task_create`
  | map (t : Nat) (area : Nat × Nat) (frames : List Nat)
  | exec (t m pgd : Nat) (frames : List Nat) (mmap : List (Nat × Nat)) (ok : Bool)
  | exit (t : Nat)
  | reap (t : Nat)

/-- `task_fork` without `CLONE_VM`. -/
def fork (s : State) (task : Task) (child : Nat) (mem : Option (Nat × Nat × List Nat)) : Option State :=
  match task.mm, mem with
  | none, _ => some (s.setTask child (some ⟨none, none, false⟩))
  | some _, none => some s
  | some o, some (m, pgd, frames) =>
    if Fresh s m pgd frames then
      some ((s.mmAlloc m pgd frames (((s.mms o).map Mm.mmap).getD [])).setTask child (some ⟨some m, some m, false⟩))
    else none

/-- `task_fork` with `CLONE_VM`. -/
def clone (s : State) (task : Task) (child : Nat) : Option State :=
  match task.mm with
  | none => none
  | some m =>
    let s' : State := { s with mms := Function.update s.mms m ((s.mms m).map fun x => { x with users := x.users + 1 }) }
    some (s'.setTask child (some ⟨some m, some m, false⟩))

/-- `do_execve` from `mm_alloc` on; without `ok` it fails behind the point of no return and exits. -/
def exec (s : State) (t : Nat) (task : Task) (m pgd : Nat) (frames : List Nat) (mmap : List (Nat × Nat)) (ok : Bool) :
    Option State :=
  if Fresh s m pgd frames then
    let s' := (s.mmAlloc m pgd frames mmap).setTask t (some ⟨some m, some m, !ok⟩)
    some (if ok then mmFreeOpt s' task.mm else s')
  else none

/-- A running task, and room for another. -/
def running (s : State) (t : Nat) : Option Task := (s.tasks t).filter fun task => !task.zombie

def step (s : State) : Label → Option State
  | .fork t child mem =>
    match running s t, s.tasks child with
    | some task, none => fork s task child mem
    | _, _ => none
  | .clone t child =>
    match running s t, s.tasks child with
    | some task, none => clone s task child
    | _, _ => none
  | .create t child =>
    match running s t, s.tasks child with
    | some task, none => some (s.setTask child (some ⟨none, task.active, false⟩))
    | _, _ => none
  | .map t area frames =>
    match (running s t).bind Task.mm with
    | some m =>
      if ∀ p ∈ frames, s.owner p = none then
        let s' : State := { s with mms := Function.update s.mms m ((s.mms m).map fun x => { x with mmap := area :: x.mmap }) }
        some (s'.addTables m frames)
      else none
    | none => none
  | .exec t m pgd frames mmap ok =>
    match running s t with
    | some task => exec s t task m pgd frames mmap ok
    | none => none
  | .exit t =>
    match running s t with
    | some task => some (s.setTask t (some { task with zombie := true }))
    | none => none
  | .reap t =>
    match s.tasks t with
    | some task => if task.zombie then some ((mmFreeOpt s task.mm).setTask t none) else none
    | none => none

def nothing : State := ⟨fun _ => none, fun _ => none, fun _ => none⟩

/-- `init_task` and its `mm_alloc`. -/
def boot (t m pgd : Nat) : State := (nothing.mmAlloc m pgd [] []).setTask t (some ⟨some m, some m, false⟩)

def machine : Machine State Label where
  init s := ∃ t m pgd, s = boot t m pgd
  step := step

def Task.Refers (task : Task) (m : Nat) : Prop := task.mm = some m ∨ task.active = some m

/-- A task other than `t` has `m` in `mm` or `active_mm`. -/
def Others (s : State) (t m : Nat) : Prop := ∃ u task, u ≠ t ∧ s.tasks u = some task ∧ task.Refers m

/-- A task has `m` in `mm` or `active_mm`. -/
def Refers (s : State) (m : Nat) : Prop := ∃ t task, s.tasks t = some task ∧ task.Refers m

/-- **An address space is there exactly while it is referred to**: its `mm_struct` and top-level table are while `R` holds
of it, and none of it is otherwise. -/
structure RightFor (R : Nat → Prop) (s : State) : Prop where
  alive : ∀ m, R m → ∃ x, s.mms m = some x ∧ s.owner x.pgd = some m
  freed : ∀ m x, s.mms m = some x → R m
  tables : ∀ p m, s.owner p = some m → R m

def Right (s : State) : Prop := RightFor (Refers s) s

/-- `m` is as it was, with every page table it had. -/
def Untouched (s s' : State) (m : Nat) : Prop := s'.mms m = s.mms m ∧ ∀ p, s.owner p = some m → s'.owner p = some m

/-- The exec, exit or reap of one task leaves the others' memory as it was. -/
def Intact (s : State) (a : Label) (s' : State) : Prop :=
  match a with
  | .exec t _ _ _ _ _ | .exit t | .reap t => ∀ u task m, u ≠ t → s.tasks u = some task → task.mm = some m → Untouched s s' m
  | _ => True

/-- **What a step must keep.** -/
def Kept (s : State) (a : Label) : Prop := ∀ s', step s a = some s' → Right s' ∧ Intact s a s'

/-- `m` has no page table below the top level. -/
def NoLower (s : State) (m : Nat) : Prop := ∀ x ∈ s.mms m, ∀ p, s.owner p = some m → p = x.pgd

/-- Whoever the task leaves behind is referred to by another. -/
def Leaves (s : State) (t : Nat) (task : Task) : Prop := ∀ m ∈ task.active, Others s t m

/-- The task's own space is referred to by no other and has no lower page tables; without one, see `Leaves`. -/
def GivesBack (s : State) (t : Nat) (task : Task) : Prop :=
  match task.mm with
  | some m => ¬Others s t m ∧ NoLower s m
  | none => Leaves s t task

/-- **The steps that let go of an address space rightly.** -/
def LetsGo (s : State) : Label → Prop
  | .exec t m pgd frames _ ok =>
    Fresh s m pgd frames → ∀ task ∈ running s t, if ok then GivesBack s t task else Leaves s t task
  | .reap t => ∀ task ∈ s.tasks t, task.zombie = true → GivesBack s t task
  | _ => True

/-! ## What is there -/

variable {s s' : State} {R : Nat → Prop} {t m o pgd : Nat} {frames : List Nat} {mmap : List (Nat × Nat)} {task : Task}

theorem RightFor.congr {R' : Nat → Prop} (h : RightFor R s) (hm : s'.mms = s.mms) (ho : s'.owner = s.owner)
    (hR : ∀ k, R k ↔ R' k) : RightFor R' s' := by
  refine ⟨fun k hk => ?_, fun k x hk => ?_, fun p k hk => ?_⟩
  · rw [hm, ho]
    exact h.alive k ((hR k).2 hk)
  · rw [hm] at hk
    exact (hR k).1 (h.freed k x hk)
  · rw [ho] at hk
    exact (hR k).1 (h.tables p k hk)

theorem addTables_owner (s : State) (m p : Nat) (frames : List Nat) :
    (s.addTables m frames).owner p = if p ∈ frames then some m else s.owner p := rfl

theorem mmAlloc_self (s : State) (m pgd : Nat) (frames : List Nat) (mmap : List (Nat × Nat)) :
    (s.mmAlloc m pgd frames mmap).mms m = some ⟨1, 1, pgd, mmap⟩ := Function.update_self _ _ _

/-- **A new address space.** -/
theorem RightFor.mmAlloc (h : RightFor R s) (hf : Fresh s m pgd frames) :
    RightFor (fun k => R k ∨ k = m) (s.mmAlloc m pgd frames mmap) := by
  obtain ⟨hm, hp, hpf, hfr⟩ := hf
  rw [Option.isNone_iff_eq_none] at hm
  have hne : ∀ k, R k → k ≠ m := by
    rintro k hk rfl
    obtain ⟨x, hx, -⟩ := h.alive k hk
    rw [hm] at hx
    cases hx
  refine ⟨?_, fun k x hk => ?_, fun p k hk => ?_⟩
  · rintro k (hk | rfl)
    · obtain ⟨x, hx, hox⟩ := h.alive k hk
      refine ⟨x, (Function.update_of_ne (hne k hk) _ _).trans hx, ?_⟩
      rw [State.mmAlloc, addTables_owner, if_neg fun hmem => ?_]
      · refine (Function.update_of_ne (fun he => ?_) _ _).trans hox
        rw [he, hp] at hox
        cases hox
      · rw [hfr _ hmem] at hox
        cases hox
    · refine ⟨⟨1, 1, pgd, mmap⟩, mmAlloc_self .., ?_⟩
      rw [State.mmAlloc, addTables_owner, if_neg hpf]
      exact Function.update_self _ _ _
  · by_cases hkm : k = m
    · exact .inr hkm
    · exact .inl (h.freed k x ((Function.update_of_ne hkm _ _).symm.trans hk))
  · rw [State.mmAlloc, addTables_owner] at hk
    split at hk
    · exact .inr (Option.some.inj hk).symm
    · by_cases hpp : p = pgd
      · subst hpp
        exact .inr (Option.some.inj ((Function.update_self p (some m) s.owner).symm.trans hk)).symm
      · exact .inl (h.tables p k ((Function.update_of_ne hpp _ _).symm.trans hk))

/-- A change to an `mm_struct` that leaves its top-level table. -/
theorem RightFor.touch (h : RightFor R s) {f : Mm → Mm} (hf : ∀ x, (f x).pgd = x.pgd) :
    RightFor R { s with mms := Function.update s.mms m ((s.mms m).map f) } := by
  refine ⟨fun k hk => ?_, fun k x hk => ?_, h.tables⟩
  · obtain ⟨x, hx, hox⟩ := h.alive k hk
    by_cases hkm : k = m
    · subst hkm
      refine ⟨f x, (Function.update_self _ _ _).trans ?_, ?_⟩
      · rw [hx]
        rfl
      · rw [hf x]
        exact hox
    · exact ⟨x, (Function.update_of_ne hkm _ _).trans hx, hox⟩
  · by_cases hkm : k = m
    · subst hkm
      obtain ⟨y, hy, -⟩ := Option.map_eq_some_iff.1 ((Function.update_self k ((s.mms k).map f) s.mms).symm.trans hk)
      exact h.freed k y hy
    · exact h.freed k x ((Function.update_of_ne hkm _ _).symm.trans hk)

/-- **More page tables** for a space that is there. -/
theorem RightFor.addTables (h : RightFor R s) (hm : R m) (hfr : ∀ p ∈ frames, s.owner p = none) :
    RightFor R (s.addTables m frames) := by
  refine ⟨fun k hk => ?_, h.freed, fun p k hk => ?_⟩
  · obtain ⟨x, hx, hox⟩ := h.alive k hk
    refine ⟨x, hx, ?_⟩
    rw [addTables_owner, if_neg fun hmem => ?_]
    · exact hox
    · rw [hfr _ hmem] at hox
      cases hox
  · rw [addTables_owner] at hk
    split at hk
    · rw [← Option.some.inj hk]
      exact hm
    · exact h.tables p k hk

/-- `mm_free` of a count of 1. -/
theorem mmFree_of_count {x : Mm} (hx : s.mms o = some x) (hcount : x.count = 1) :
    mmFree s o = { s with mms := Function.update s.mms o none, owner := Function.update s.owner x.pgd none } := by
  unfold mmFree
  rw [hx]
  simp only [hcount, Int.sub_self, if_true]

/-- **`mm_free` is right exactly when it is called for the last reference** and there are no lower tables. -/
theorem rightFor_mmFree_iff (h : RightFor (fun k => R k ∨ k = o) s) (hcount : ∀ x ∈ s.mms o, x.count = 1) :
    RightFor R (mmFree s o) ↔ ¬R o ∧ NoLower s o := by
  obtain ⟨x, hx, hox⟩ := h.alive o (.inr rfl)
  rw [mmFree_of_count hx (hcount x hx)]
  constructor
  · intro h'
    have hno : ¬R o := by
      intro ho
      obtain ⟨y, hy, -⟩ := h'.alive o ho
      cases (Function.update_self _ _ _).symm.trans hy
    refine ⟨hno, fun y hy p hp => ?_⟩
    rw [hx, Option.mem_def, Option.some.injEq] at hy
    subst hy
    by_contra hpx
    exact hno (h'.tables p o ((Function.update_of_ne hpx _ _).trans hp))
  · rintro ⟨hno, hlow⟩
    have hne : ∀ k, R k → k ≠ o := by
      rintro k hk rfl
      exact hno hk
    refine ⟨fun k hk => ?_, fun k y hk => ?_, fun p k hk => ?_⟩
    · obtain ⟨y, hy, hoy⟩ := h.alive k (.inl hk)
      refine ⟨y, (Function.update_of_ne (hne k hk) _ _).trans hy, (Function.update_of_ne (fun he => ?_) _ _).trans hoy⟩
      rw [he, hox] at hoy
      exact hne k hk (Option.some.inj hoy).symm
    · by_cases hko : k = o
      · subst hko
        cases (Function.update_self _ _ _).symm.trans hk
      · exact (h.freed k y ((Function.update_of_ne hko _ _).symm.trans hk)).resolve_right hko
    · by_cases hpx : p = x.pgd
      · subst hpx
        cases (Function.update_self _ _ _).symm.trans hk
      · have hp : s.owner p = some k := (Function.update_of_ne hpx _ _).symm.trans hk
        refine (h.tables p k hp).resolve_right fun hko => hpx ?_
        subst hko
        exact hlow x hx p hp

/-- Leaving it is right exactly when there is another reference. -/
theorem rightFor_leave_iff (h : RightFor (fun k => R k ∨ task.active = some k) s) :
    RightFor R s ↔ ∀ m ∈ task.active, R m := by
  constructor
  · intro h' m hm
    obtain ⟨x, hx, -⟩ := h.alive m (.inr hm)
    exact h'.freed m x hx
  · intro hall
    exact h.congr rfl rfl fun k => ⟨fun hk => hk.elim id (hall k), .inl⟩

/-! ## Who refers to what -/

theorem running_iff : running s t = some task ↔ s.tasks t = some task ∧ task.zombie = false := by
  rw [running, Option.filter_eq_some_iff]
  cases task.zombie <;> simp

theorem others_of_tasks (h : s'.tasks = s.tasks) (k : Nat) : Others s' t k ↔ Others s t k := by
  rw [Others, Others, h]

theorem refers_iff (h : s.tasks t = some task) (k : Nat) : Refers s k ↔ Others s t k ∨ task.Refers k := by
  constructor
  · rintro ⟨u, task', hu, hk⟩
    by_cases hut : u = t
    · subst hut
      rw [h, Option.some.injEq] at hu
      exact .inr (hu ▸ hk)
    · exact .inl ⟨u, task', hut, hu, hk⟩
  · rintro (⟨u, task', -, hu, hk⟩ | hk)
    · exact ⟨u, task', hu, hk⟩
    · exact ⟨t, task, h, hk⟩

theorem refers_of_none (h : s.tasks t = none) (k : Nat) : Refers s k ↔ Others s t k := by
  constructor
  · rintro ⟨u, task', hu, hk⟩
    refine ⟨u, task', fun hut => ?_, hu, hk⟩
    rw [hut, h] at hu
    cases hu
  · rintro ⟨u, task', -, hu, hk⟩
    exact ⟨u, task', hu, hk⟩

theorem others_setTask (s : State) (t : Nat) (x : Option Task) (k : Nat) : Others (s.setTask t x) t k ↔ Others s t k := by
  constructor
  · rintro ⟨u, task', hut, hu, hk⟩
    exact ⟨u, task', hut, (Function.update_of_ne hut _ _).symm.trans hu, hk⟩
  · rintro ⟨u, task', hut, hu, hk⟩
    exact ⟨u, task', hut, (Function.update_of_ne hut _ _).trans hu, hk⟩

theorem setTask_self (s : State) (t : Nat) (x : Option Task) : (s.setTask t x).tasks t = x := Function.update_self _ _ _

theorem refers_setTask (s : State) (t : Nat) (task : Task) (k : Nat) :
    Refers (s.setTask t (some task)) k ↔ Others s t k ∨ task.Refers k := by
  rw [refers_iff (setTask_self s t (some task)), others_setTask]

theorem refers_unsetTask (s : State) (t k : Nat) : Refers (s.setTask t none) k ↔ Others s t k := by
  rw [refers_of_none (setTask_self s t none), others_setTask]

theorem refers_both (m : Nat) (z : Bool) (k : Nat) : Task.Refers ⟨some m, some m, z⟩ k ↔ k = m := by
  constructor
  · rintro (hk | hk) <;> exact (Option.some.inj hk).symm
  · rintro rfl
    exact .inl rfl

/-- **The counts are all 1, and a task's `mm` is its `active_mm`.** -/
structure Plain (s : State) : Prop where
  count : ∀ m x, s.mms m = some x → x.count = 1
  own : ∀ t task, s.tasks t = some task → ∀ m, task.mm = some m → task.active = some m

theorem Task.refers_iff (h : ∀ m, task.mm = some m → task.active = some m) (k : Nat) :
    task.Refers k ↔ task.active = some k :=
  ⟨fun hk => hk.elim (h k) id, .inr⟩

/-! ## What a step keeps -/

theorem Plain.setTask (h : Plain s) {x : Option Task} (hx : ∀ task ∈ x, ∀ m, task.mm = some m → task.active = some m) :
    Plain (s.setTask t x) := by
  refine ⟨h.count, fun u task hu => ?_⟩
  by_cases hut : u = t
  · subst hut
    exact hx task ((setTask_self s u x).symm.trans hu)
  · exact h.own u task ((Function.update_of_ne hut _ _).symm.trans hu)

theorem Plain.mmAlloc (h : Plain s) : Plain (s.mmAlloc m pgd frames mmap) := by
  refine ⟨fun k x hk => ?_, h.own⟩
  by_cases hkm : k = m
  · subst hkm
    have hx : some ⟨1, 1, pgd, mmap⟩ = some x := (mmAlloc_self s k pgd frames mmap).symm.trans hk
    rw [← Option.some.inj hx]
  · exact h.count k x ((Function.update_of_ne hkm _ _).symm.trans hk)

theorem Plain.touch (h : Plain s) (f : Mm → Mm) (hf : ∀ x, (f x).count = x.count) :
    Plain { s with mms := Function.update s.mms m ((s.mms m).map f) } := by
  refine ⟨fun k x hk => ?_, h.own⟩
  by_cases hkm : k = m
  · subst hkm
    obtain ⟨y, hy, rfl⟩ := Option.map_eq_some_iff.1 ((Function.update_self k ((s.mms k).map f) s.mms).symm.trans hk)
    rw [hf y]
    exact h.count k y hy
  · exact h.count k x ((Function.update_of_ne hkm _ _).symm.trans hk)

theorem Plain.mmFree (h : Plain s) : Plain (mmFree s o) := by
  cases hx : s.mms o with
  | none =>
    rw [MmLife.mmFree, hx]
    exact h
  | some x =>
    rw [mmFree_of_count hx (h.count o x hx)]
    refine ⟨fun k y hk => ?_, h.own⟩
    by_cases hko : k = o
    · subst hko
      cases (Function.update_self _ _ _).symm.trans hk
    · exact h.count k y ((Function.update_of_ne hko _ _).symm.trans hk)

theorem Plain.mmFreeOpt (h : Plain s) (x : Option Nat) : Plain (mmFreeOpt s x) := by
  cases x with
  | none => exact h
  | some o => exact h.mmFree

theorem mmFree_tasks (s : State) (o : Nat) : (mmFree s o).tasks = s.tasks := by
  unfold mmFree
  split
  · rfl
  · split <;> rfl

theorem mmFreeOpt_tasks (s : State) (x : Option Nat) : (mmFreeOpt s x).tasks = s.tasks := by
  cases x with
  | none => rfl
  | some o => exact mmFree_tasks s o

theorem Plain.step {a : Label} (h : Plain s) (hs : step s a = some s') : Plain s' := by
  cases a with
  | fork t child mem =>
    simp only [MmLife.step] at hs
    split at hs
    · unfold fork at hs
      split at hs
      · cases hs
        exact h.setTask (by simp)
      · cases hs
        exact h
      · split at hs
        · cases hs
          exact h.mmAlloc.setTask (by simp)
        · cases hs
    · cases hs
  | clone t child =>
    simp only [MmLife.step] at hs
    split at hs
    · unfold clone at hs
      split at hs
      · cases hs
      · cases hs
        exact (h.touch (fun x => { x with users := x.users + 1 }) fun _ => rfl).setTask (by simp)
    · cases hs
  | create t child =>
    simp only [MmLife.step] at hs
    split at hs
    · cases hs
      exact h.setTask (by simp)
    · cases hs
  | map t area frames =>
    simp only [MmLife.step] at hs
    split at hs
    · split at hs
      · cases hs
        exact ⟨(h.touch (fun x => { x with mmap := area :: x.mmap }) fun _ => rfl).count, h.own⟩
      · cases hs
    · cases hs
  | exec t m pgd frames mmap ok =>
    simp only [MmLife.step] at hs
    split at hs
    · unfold exec at hs
      split at hs
      · cases hs
        have hs' : Plain ((s.mmAlloc m pgd frames mmap).setTask t (some ⟨some m, some m, !ok⟩)) := h.mmAlloc.setTask (by simp)
        cases ok with
        | true => exact hs'.mmFreeOpt _
        | false => exact hs'
      · cases hs
    · cases hs
  | exit t =>
    simp only [MmLife.step] at hs
    split at hs
    · rename_i task hrun
      cases hs
      refine h.setTask fun task' hx => ?_
      cases hx
      exact h.own t task (running_iff.1 hrun).1
    · cases hs
  | reap t =>
    simp only [MmLife.step] at hs
    split at hs
    · split at hs
      · cases hs
        exact (h.mmFreeOpt _).setTask (by simp)
      · cases hs
    · cases hs

/-- A task in a free slot that refers to nothing new. -/
theorem Right.newTask (h : RightFor (Refers s) s) (hnone : s.tasks t = none)
    (hold : ∀ k, task.Refers k → Refers s k) : Right (s.setTask t (some task)) := by
  refine h.congr rfl rfl fun k => ?_
  rw [refers_setTask, ← refers_of_none hnone]
  exact ⟨.inl, fun hk => hk.elim id (hold k)⟩

/-- **The calls that let go of nothing** are right. -/
theorem Right.quiet {a : Label} (h : Right s) (hs : step s a = some s')
    (hq : match a with | .exec .. | .reap _ => False | _ => True) : Right s' := by
  cases a with
  | fork t child mem =>
    simp only [step] at hs
    split at hs
    · rename_i task hrun hnone
      unfold fork at hs
      split at hs
      · cases hs
        refine Right.newTask h hnone fun k hk => ?_
        rcases hk with hk | hk <;> cases hk
      · cases hs
        exact h
      · rename_i m pgd frames hmm hmem
        split at hs
        · rename_i hf
          cases hs
          refine (h.mmAlloc hf).congr rfl rfl fun k => ?_
          rw [refers_setTask, refers_of_none hnone, refers_both]
          exact Iff.rfl
        · cases hs
    · cases hs
  | clone t child =>
    simp only [step] at hs
    split at hs
    · rename_i task hrun hnone
      unfold clone at hs
      split at hs
      · cases hs
      · rename_i m hmm
        cases hs
        refine Right.newTask (h.touch fun _ => rfl) hnone fun k hk => ?_
        rcases hk with hk | hk <;> cases hk <;> exact ⟨t, task, (running_iff.1 hrun).1, .inl hmm⟩
    · cases hs
  | create t child =>
    simp only [step] at hs
    split at hs
    · rename_i task hrun hnone
      cases hs
      refine Right.newTask h hnone fun k hk => ?_
      rcases hk with hk | hk
      · cases hk
      · exact ⟨t, task, (running_iff.1 hrun).1, .inr hk⟩
    · cases hs
  | map t area frames =>
    simp only [step] at hs
    split at hs
    · rename_i m hmm
      split at hs
      · rename_i hfr
        cases hs
        obtain ⟨task, hrun, hmm⟩ := Option.bind_eq_some_iff.1 hmm
        have h' : Right { s with mms := Function.update s.mms m ((s.mms m).map fun x => { x with mmap := area :: x.mmap }) } :=
          h.touch fun _ => rfl
        exact h'.addTables ⟨t, task, (running_iff.1 hrun).1, .inl hmm⟩ hfr
      · cases hs
    · cases hs
  | exit t =>
    simp only [step] at hs
    split at hs
    · rename_i task hrun
      cases hs
      refine h.congr rfl rfl fun k => ?_
      rw [refers_setTask, refers_iff (running_iff.1 hrun).1]
      rfl
    · cases hs
  | exec t m pgd frames mmap ok => exact hq.elim
  | reap t => exact hq.elim

/-- **Letting go** of what `task` refers to, `R` being what the rest refers to. -/
theorem rightFor_letGo_iff (h : RightFor (fun k => R k ∨ task.active = some k) s) (hplain : Plain s)
    (hown : ∀ m, task.mm = some m → task.active = some m) :
    RightFor R (mmFreeOpt s task.mm) ↔
      match task.mm with
      | some m => ¬R m ∧ NoLower s m
      | none => ∀ m ∈ task.active, R m := by
  cases hmm : task.mm with
  | some m =>
    have hm : RightFor (fun k => R k ∨ k = m) s := by
      refine h.congr rfl rfl fun k => ?_
      rw [hown m hmm, Option.some.injEq, eq_comm (a := m)]
    exact rightFor_mmFree_iff hm fun x hx => hplain.count m x hx
  | none => exact rightFor_leave_iff h

theorem noLower_congr (hm : s'.mms o = s.mms o) (ho : ∀ p, s'.owner p = some o ↔ s.owner p = some o) :
    NoLower s' o ↔ NoLower s o := by
  simp only [NoLower, hm, ho]

/-- A fresh space is no one's. -/
theorem RightFor.ne_fresh (h : RightFor R s) (hf : Fresh s m pgd frames) {k : Nat} (hk : R k) : k ≠ m := by
  rintro rfl
  obtain ⟨x, hx, -⟩ := h.alive k hk
  rw [Option.isNone_iff_eq_none.1 hf.1] at hx
  cases hx

/-- `mm_alloc` leaves the other spaces' page tables. -/
theorem mmAlloc_owner (hf : Fresh s m pgd frames) {k : Nat} (hk : k ≠ m) (p : Nat) :
    (s.mmAlloc m pgd frames mmap).owner p = some k ↔ s.owner p = some k := by
  obtain ⟨-, hp, -, hfr⟩ := hf
  rw [State.mmAlloc, addTables_owner]
  by_cases hmem : p ∈ frames
  · rw [if_pos hmem, hfr p hmem]
    exact iff_of_false (fun he => hk (Option.some.inj he).symm) nofun
  · rw [if_neg hmem]
    by_cases hpp : p = pgd
    · subst hpp
      rw [hp]
      exact iff_of_false
        (fun he => hk (Option.some.inj ((Function.update_self p (some m) s.owner).symm.trans he)).symm) nofun
    · change Function.update s.owner pgd (some m) p = some k ↔ s.owner p = some k
      rw [Function.update_of_ne hpp]

theorem mmAlloc_mms (frames : List Nat) {k : Nat} (hk : k ≠ m) : (s.mmAlloc m pgd frames mmap).mms k = s.mms k :=
  Function.update_of_ne hk _ _

/-- `mm_free` leaves the other spaces. -/
theorem untouched_mmFree (h : RightFor R s) (hplain : Plain s) (ho : R o) {k : Nat} (hk : k ≠ o) :
    Untouched s (mmFree s o) k := by
  obtain ⟨x, hx, hox⟩ := h.alive o ho
  rw [mmFree_of_count hx (hplain.count o x hx)]
  refine ⟨Function.update_of_ne hk _ _, fun p hp => (Function.update_of_ne (fun he => ?_) _ _).trans hp⟩
  rw [he, hox] at hp
  exact hk (Option.some.inj hp).symm

theorem Untouched.trans {s'' : State} (h : Untouched s s' m) (h' : Untouched s' s'' m) : Untouched s s'' m :=
  ⟨h'.1.trans h.1, fun p hp => h'.2 p (h.2 p hp)⟩

/-- Letting go leaves the spaces that the rest refers to. -/
theorem untouched_letGo (h : RightFor (fun k => R k ∨ task.active = some k) s) (hplain : Plain s)
    (hown : ∀ m, task.mm = some m → task.active = some m) (hno : ∀ m, task.mm = some m → ¬R m) {k : Nat} (hk : R k) :
    Untouched s (mmFreeOpt s task.mm) k := by
  cases hmm : task.mm with
  | none => exact ⟨rfl, fun _ => id⟩
  | some m =>
    refine untouched_mmFree h hplain (.inr (hown m hmm)) ?_
    rintro rfl
    exact hno k hmm hk

/-! ## Exec and reap -/

/-- What exec leaves in its task's place, before `mm_free`. -/
def execSwitch (s : State) (t m pgd : Nat) (frames : List Nat) (mmap : List (Nat × Nat)) (ok : Bool) : State :=
  (s.mmAlloc m pgd frames mmap).setTask t (some ⟨some m, some m, !ok⟩)

variable {ok : Bool}

/-- The spaces that are there behind the point of no return. -/
theorem rightFor_execSwitch (h : Right s) (hplain : Plain s) (ht : s.tasks t = some task) (hf : Fresh s m pgd frames)
    (mmap : List (Nat × Nat)) (ok : Bool) :
    RightFor (fun k => (Others s t k ∨ k = m) ∨ task.active = some k) (execSwitch s t m pgd frames mmap ok) := by
  refine (h.mmAlloc hf).congr rfl rfl fun k => ?_
  rw [refers_iff ht, Task.refers_iff (hplain.own t task ht), or_right_comm]

theorem refers_execSwitch (k : Nat) :
    Refers (execSwitch s t m pgd frames mmap ok) k ↔ Others s t k ∨ k = m := by
  rw [execSwitch, refers_setTask, refers_both]
  exact Iff.rfl

theorem plain_execSwitch (hplain : Plain s) : Plain (execSwitch s t m pgd frames mmap ok) :=
  hplain.mmAlloc.setTask (by simp)

theorem exec_eq (hf : Fresh s m pgd frames) :
    exec s t task m pgd frames mmap ok =
      some (if ok then mmFreeOpt (execSwitch s t m pgd frames mmap ok) task.mm else execSwitch s t m pgd frames mmap ok) :=
  if_pos hf

theorem refers_mmFreeOpt (x : Option Nat) (k : Nat) : Refers (mmFreeOpt s x) k ↔ Refers s k := by
  rw [Refers, Refers, mmFreeOpt_tasks]

theorem right_of_refers (hR : ∀ k, Refers s k ↔ R k) : Right s ↔ RightFor R s :=
  ⟨fun h => h.congr rfl rfl hR, fun h => h.congr rfl rfl fun k => (hR k).symm⟩

/-- The old space is not the fresh one. -/
theorem active_ne_fresh (h : Right s) (ht : s.tasks t = some task) (hf : Fresh s m pgd frames) {o : Nat}
    (ho : task.active = some o) : o ≠ m :=
  h.ne_fresh hf ⟨t, task, ht, .inr ho⟩

theorem right_exec_iff (h : Right s) (hplain : Plain s) (ht : s.tasks t = some task) (hf : Fresh s m pgd frames)
    (mmap : List (Nat × Nat)) (ok : Bool) :
    (∀ s', exec s t task m pgd frames mmap ok = some s' → Right s') ↔
      if ok then GivesBack s t task else Leaves s t task := by
  have hright := rightFor_execSwitch h hplain ht hf mmap ok
  have hleave : (∀ o ∈ task.active, Others s t o ∨ o = m) ↔ Leaves s t task := by
    refine forall₂_congr fun o ho => ?_
    rw [or_iff_left (active_ne_fresh h ht hf ho)]
  rw [exec_eq hf]
  simp only [Option.some.injEq, forall_eq']
  cases ok with
  | false =>
    simp only [Bool.false_eq_true, if_false]
    rw [right_of_refers refers_execSwitch, rightFor_leave_iff hright, hleave]
  | true =>
    simp only [if_true]
    rw [right_of_refers fun k => (refers_mmFreeOpt _ k).trans (refers_execSwitch k),
      rightFor_letGo_iff hright (plain_execSwitch hplain) (hplain.own t task ht)]
    unfold GivesBack
    cases hmm : task.mm with
    | none => exact hleave
    | some o =>
      have hne := active_ne_fresh h ht hf (hplain.own t task ht o hmm)
      simp only [or_iff_left hne]
      exact and_congr_right' (noLower_congr (mmAlloc_mms frames hne) (mmAlloc_owner hf hne))

/-- What is there before a reap. -/
theorem rightFor_reap (h : Right s) (hplain : Plain s) (ht : s.tasks t = some task) :
    RightFor (fun k => Others s t k ∨ task.active = some k) s := by
  refine h.congr rfl rfl fun k => ?_
  rw [refers_iff ht, Task.refers_iff (hplain.own t task ht)]

theorem right_reap_iff (h : Right s) (hplain : Plain s) (ht : s.tasks t = some task) :
    Right ((mmFreeOpt s task.mm).setTask t none) ↔ GivesBack s t task := by
  have hR : ∀ k, Refers ((mmFreeOpt s task.mm).setTask t none) k ↔ Others s t k := fun k => by
    rw [refers_unsetTask, others_of_tasks (mmFreeOpt_tasks _ _)]
  have hset : RightFor (Others s t) ((mmFreeOpt s task.mm).setTask t none) ↔ RightFor (Others s t) (mmFreeOpt s task.mm) :=
    ⟨fun h => h.congr rfl rfl fun _ => Iff.rfl, fun h => h.congr rfl rfl fun _ => Iff.rfl⟩
  rw [right_of_refers hR, hset, rightFor_letGo_iff (rightFor_reap h hplain ht) hplain (hplain.own t task ht)]
  rfl

/-- Under `GivesBack` no other has what the task gives back. -/
theorem GivesBack.alone (h : GivesBack s t task) : ∀ m, task.mm = some m → ¬Others s t m := by
  intro m hm
  rw [GivesBack, hm] at h
  exact h.1

theorem others_of_mm {u : Nat} {task' : Task} (hut : u ≠ t) (hu : s.tasks u = some task') {k : Nat}
    (hk : task'.mm = some k) : Others s t k := ⟨u, task', hut, hu, .inl hk⟩

/-- Up to the point of no return the others' spaces are left alone. -/
theorem untouched_execSwitch (h : Right s) (hf : Fresh s m pgd frames) {k : Nat} (hk : Others s t k) :
    Untouched s (execSwitch s t m pgd frames mmap ok) k := by
  obtain ⟨u, task', -, hu, hk⟩ := hk
  have hne := h.ne_fresh hf ⟨u, task', hu, hk⟩
  exact ⟨mmAlloc_mms frames hne, fun p hp => (mmAlloc_owner hf hne p).2 hp⟩

theorem intact_exec (h : Right s) (hplain : Plain s) (ht : s.tasks t = some task) (hf : Fresh s m pgd frames)
    (hok : if ok then GivesBack s t task else Leaves s t task) (hs : exec s t task m pgd frames mmap ok = some s') :
    Intact s (.exec t m pgd frames mmap ok) s' := by
  intro u task' k hut hu hk
  have hk := others_of_mm hut hu hk
  rw [exec_eq hf, Option.some.injEq] at hs
  subst hs
  cases ok with
  | false => exact untouched_execSwitch h hf hk
  | true =>
    refine (untouched_execSwitch h hf hk).trans
      (untouched_letGo (rightFor_execSwitch h hplain ht hf mmap true) (plain_execSwitch hplain) (hplain.own t task ht) ?_
        (.inl hk))
    rintro o ho (hno | rfl)
    · exact GivesBack.alone hok o ho hno
    · exact active_ne_fresh h ht hf (hplain.own t task ht o ho) rfl

theorem intact_reap (h : Right s) (hplain : Plain s) (ht : s.tasks t = some task) (hok : GivesBack s t task) :
    Intact s (.reap t) ((mmFreeOpt s task.mm).setTask t none) := fun _ _ _ hut hu hk =>
  untouched_letGo (rightFor_reap h hplain ht) hplain (hplain.own t task ht) hok.alone (others_of_mm hut hu hk)

/-- **What every run of such steps keeps.** -/
structure Inv (s : State) : Prop where
  right : Right s
  plain : Plain s

theorem kept_iff_letsGo (s : State) (a : Label) (h : Inv s) : Kept s a ↔ LetsGo s a := by
  obtain ⟨hr, hp⟩ := h
  cases a with
  | exec t m pgd frames mmap ok =>
    constructor
    · intro hkept hf task hrun
      refine (right_exec_iff hr hp (running_iff.1 hrun).1 hf mmap ok).1 fun s' hs' => (hkept s' ?_).1
      simp only [step, Option.mem_def.1 hrun]
      exact hs'
    · intro hok s' hs
      simp only [step] at hs
      split at hs
      · rename_i task hrun
        have ht := (running_iff.1 hrun).1
        by_cases hf : Fresh s m pgd frames
        · have hok := hok hf task hrun
          exact ⟨(right_exec_iff hr hp ht hf mmap ok).2 hok s' hs, intact_exec hr hp ht hf hok hs⟩
        · rw [exec, if_neg hf] at hs
          cases hs
      · cases hs
  | reap t =>
    constructor
    · intro hkept task ht hz
      refine (right_reap_iff hr hp ht).1 (hkept _ ?_).1
      simp only [step, Option.mem_def.1 ht, hz, if_true]
    · intro hok s' hs
      simp only [step] at hs
      split at hs
      · rename_i task ht
        split at hs
        · rename_i hz
          cases hs
          have hok := hok task ht hz
          exact ⟨(right_reap_iff hr hp ht).2 hok, intact_reap hr hp ht hok⟩
        · cases hs
      · cases hs
  | exit t =>
    refine iff_of_true (fun s' hs => ⟨hr.quiet hs trivial, ?_⟩) trivial
    simp only [step] at hs
    split at hs
    · cases hs
      exact fun _ _ _ _ _ _ => ⟨rfl, fun _ => id⟩
    · cases hs
  | fork t child mem => exact iff_of_true (fun s' hs => ⟨hr.quiet hs trivial, trivial⟩) trivial
  | clone t child => exact iff_of_true (fun s' hs => ⟨hr.quiet hs trivial, trivial⟩) trivial
  | create t child => exact iff_of_true (fun s' hs => ⟨hr.quiet hs trivial, trivial⟩) trivial
  | map t area frames => exact iff_of_true (fun s' hs => ⟨hr.quiet hs trivial, trivial⟩) trivial

theorem Inv.start (h : machine.init s) : Inv s := by
  obtain ⟨t, m, pgd, rfl⟩ := h
  have hright : RightFor (fun _ => False) nothing := ⟨nofun, nofun, nofun⟩
  have hplain : Plain nothing := ⟨nofun, nofun⟩
  have hf : Fresh nothing m pgd [] := ⟨rfl, rfl, List.not_mem_nil, fun _ h => absurd h List.not_mem_nil⟩
  refine ⟨(hright.mmAlloc hf).congr rfl rfl fun k => ?_, hplain.mmAlloc.setTask (by simp)⟩
  rw [boot, refers_setTask, refers_both]
  refine or_congr_left (iff_of_false id ?_)
  rintro ⟨u, task, -, hu, -⟩
  cases hu

/-- **An address space lives as long as it is referred to** exactly when each exec and each reap gives back what no other
refers to, and that has no lower page tables, or leaves what another does. -/
theorem lifeKept_iff (l : List Label) (s s' : State) (hinit : machine.init s) :
    machine.RunOk Kept s l s' ↔ machine.RunOk LetsGo s l s' := by
  refine machine.runOk_iff kept_iff_letsGo (fun s a s' h hok hs => ?_) l s s' (Inv.start hinit)
  exact ⟨((kept_iff_letsGo s a h).2 hok s' hs).1, h.plain.step hs⟩

/-- A fork that exits and is reaped. -/
theorem lifeKept_fork :
    ∃ s', machine.RunOk Kept (boot 1 0 0) [.fork 1 2 (some (5, 9, [])), .exit 2, .reap 2] s' := by
  refine ⟨_, (lifeKept_iff _ _ _ ⟨1, 0, 0, rfl⟩).2 ⟨trivial, _, rfl, trivial, _, rfl, ?_, _, rfl, rfl⟩⟩
  rintro task ht -
  cases ht
  refine ⟨?_, ?_⟩
  · rintro ⟨u, task, hu2, hu, hk⟩
    by_cases hu1 : u = 1
    · subst hu1
      cases hu
      rcases hk with hk | hk <;> cases hk
    · simp [boot, nothing, State.setTask, State.mmAlloc, State.addTables, hu1, hu2] at hu
  · rintro x hx p hp
    cases hx
    by_contra hp9
    simp [boot, nothing, State.setTask, State.mmAlloc, State.addTables, Function.update_apply, hp9] at hp

/-- **The exec of one sharer frees the other's address space.** -/
theorem not_lifeKept : ¬∀ l s s', machine.init s → machine.run s l = some s' → machine.RunOk Kept s l s' := by
  intro h
  have hrun := h [.clone 1 2, .exec 2 5 9 [] [] true] (boot 1 0 0) _ ⟨1, 0, 0, rfl⟩ rfl
  obtain ⟨-, s₁, hs₁, hexec, -⟩ := hrun
  cases hs₁
  obtain ⟨x, hx, -⟩ := (hexec _ rfl).1.alive 0 ⟨1, ⟨some 0, some 0, false⟩, rfl, .inl rfl⟩
  cases hx

end MmLife
end Pico
