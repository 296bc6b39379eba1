import Picomimi.Cred
import Picomimi.Lib.Refs
/-!
# CredLife — who holds a `cred_t`, and what its `usage` says

A task has two pointers to its credentials and one count for both.  The calls of `cred.c` install a copy through
`commit_cred`, which drops the count and moves `cred` alone; those of `syscall_stubs.c` go through `copy_cred_for_write`,
which moves both.  `do_exit` keeps the credentials of a zombie, and `reap_zombie` frees the task without them.
`always_law_iff_runOk` says which runs keep the books right.
-/
namespace Pico
namespace CredLife

open Lib Cred

structure Task where
  cred : Option Nat
  realCred : Option Nat
  zombie : Bool

/-- The tasks in the order they are made, the `usage` of each `cred_t`, and what it says. -/
structure State where
  ntasks : Nat
  tasks : Nat → Option Task
  pool : Pool
  obj : Nat → Cred

def State.setTask (s : State) (t : Nat) (task : Option Task) : State := { s with tasks := Function.update s.tasks t task }

def running (s : State) (t : Nat) : Option Task := (s.tasks t).filter fun task => !task.zombie

/-! ## `cred.c` -/

/-- `cred_alloc` of what `kmalloc` gives, filled with `c`. -/
def credAlloc (s : State) (x : Nat) (c : Cred) : State :=
  { s with pool := s.pool.alloc x, obj := Function.update s.obj x c }

def credPut (p : Pool) : Option Nat → Pool
  | none => p
  | some x => p.dec x

/-- What `memset` leaves, and what `init_task` starts with. -/
def zeroCred : Cred := ⟨⟨0, 0, 0, 0⟩, ⟨0, 0, 0, 0⟩, [], ⟨0, 0, 0, 0⟩⟩

def prepareCred (s : State) (task : Task) (mem : Option Nat) : Option (Nat × State) :=
  match task.cred, mem with
  | some c, some x => some (x, credAlloc s x (s.obj c))
  | _, _ => none

/-- `real_cred` stays where it was. -/
def commitCred (s : State) (t : Nat) (task : Task) (x : Nat) : State :=
  { s.setTask t (some { task with cred := some x }) with pool := credPut s.pool task.cred }

/-- `prepare_cred`; then the change and `commit_cred`, or `kfree` of the copy. -/
def commitCall (s : State) (t : Nat) (task : Task) (mem : Option Nat) (edit : Cred → Option Cred) : Int × State :=
  match prepareCred s task mem with
  | none => (-enomem, s)
  | some (x, s₁) =>
    match edit (s₁.obj x) with
    | none => (-eperm, { s₁ with pool := s₁.pool.free x })
    | some c => (0, commitCred { s₁ with obj := Function.update s₁.obj x c } t task x)

def sysSetuid (s : State) (t : Nat) (task : Task) (mem : Option Nat) (uid : UInt32) : Int × State :=
  commitCall s t task mem fun c => (setId (hasCap c capSetuid) c.user uid).map fun ids => { c with user := ids }

def sysSetgid (s : State) (t : Nat) (task : Task) (mem : Option Nat) (gid : UInt32) : Int × State :=
  commitCall s t task mem fun c => (setId (hasCap c capSetgid) c.group gid).map fun ids => { c with group := ids }

def sysSetresuid (s : State) (t : Nat) (task : Task) (mem : Option Nat) (ruid euid suid : UInt32) : Int × State :=
  commitCall s t task mem fun c =>
    (setResId (hasCap c capSetuid) c.user ruid euid suid).map fun ids => { c with user := ids }

def sysSetresgid (s : State) (t : Nat) (task : Task) (mem : Option Nat) (rgid egid sgid : UInt32) : Int × State :=
  commitCall s t task mem fun c =>
    (setResId (hasCap c capSetgid) c.group rgid egid sgid).map fun ids => { c with group := ids }

def sysSetgroups (s : State) (t : Nat) (task : Task) (mem : Option Nat) (size : Int) (list : Nat → UInt32) :
    Int × State :=
  if size < 0 ∨ ngroupsMax < size then (-einval, s)
  else commitCall s t task mem fun c =>
    if hasCap c capSetgid then some { c with groups := (List.range size.toNat).map list } else none

/-! ## `syscall_stubs.c` -/

/-- `copy_cred_for_write`, and the fields set; `cred_copy` reads through a `NULL`, and the kernel faults. -/
def writeCall (s : State) (t : Nat) (task : Task) (mem : Option Nat) (edit : Cred → Cred) : Option (Bool × State) :=
  match mem, task.cred with
  | none, _ => some (false, s)
  | some _, none => none
  | some x, some c =>
    some (true, { (credAlloc s x (edit (s.obj c))).setTask t (some { task with cred := some x, realCred := some x }) with
      pool := credPut (s.pool.alloc x) (some c) })

/-- `-ENOMEM` without a copy. -/
def orEnomem (r : Bool × State) : Int × State := (if r.1 then 0 else -enomem, r.2)

def sysSetreuid (s : State) (t : Nat) (task : Task) (mem : Option Nat) (ruid euid : UInt32) : Option (Int × State) :=
  (writeCall s t task mem fun c => { c with user := setReId c.user ruid euid }).map orEnomem

def sysSetregid (s : State) (t : Nat) (task : Task) (mem : Option Nat) (rgid egid : UInt32) : Option (Int × State) :=
  (writeCall s t task mem fun c => { c with group := setReId c.group rgid egid }).map orEnomem

def sysSetfsuid (s : State) (t : Nat) (task : Task) (mem : Option Nat) (fsuid : UInt32) : Option (Int × State) :=
  let old : Int := match task.cred with
    | none => 0
    | some c => (s.obj c).user.fsid.toNat
  (writeCall s t task mem fun c => { c with user := { c.user with fsid := fsuid } }).map fun r => (old, r.2)

def sysSetfsgid (s : State) (t : Nat) (task : Task) (mem : Option Nat) (fsgid : UInt32) : Option (Int × State) :=
  let old : Int := match task.cred with
    | none => 0
    | some c => (s.obj c).group.fsid.toNat
  (writeCall s t task mem fun c => { c with group := { c.group with fsid := fsgid } }).map fun r => (old, r.2)

inductive Call where
  | setuid (uid : UInt32)
  | setgid (gid : UInt32)
  | setresuid (ruid euid suid : UInt32)
  | setresgid (rgid egid sgid : UInt32)
  | setgroups (size : Int) (list : Nat → UInt32)
  | setreuid (ruid euid : UInt32)
  | setregid (rgid egid : UInt32)
  | setfsuid (fsuid : UInt32)
  | setfsgid (fsgid : UInt32)

def call (s : State) (t : Nat) (task : Task) (mem : Option Nat) : Call → Option (Int × State)
  | .setuid uid => some (sysSetuid s t task mem uid)
  | .setgid gid => some (sysSetgid s t task mem gid)
  | .setresuid ruid euid suid => some (sysSetresuid s t task mem ruid euid suid)
  | .setresgid rgid egid sgid => some (sysSetresgid s t task mem rgid egid sgid)
  | .setgroups size list => some (sysSetgroups s t task mem size list)
  | .setreuid ruid euid => sysSetreuid s t task mem ruid euid
  | .setregid rgid egid => sysSetregid s t task mem rgid egid
  | .setfsuid fsuid => sysSetfsuid s t task mem fsuid
  | .setfsgid fsgid => sysSetfsgid s t task mem fsgid

/-! ## Tasks -/

/-- A new task, with one `cred_t` under both names. -/
def addTask (s : State) (c : Option Nat) : State :=
  { s.setTask s.ntasks (some ⟨c, c, false⟩) with ntasks := s.ntasks + 1 }

/-- `task_create`, when `made`, with the `cred_t` that `cred_alloc` gets. -/
def taskCreate (s : State) (made : Bool) (mem : Option Nat) : State :=
  match made, mem with
  | false, _ => s
  | true, none => addTask s none
  | true, some x => addTask (credAlloc s x zeroCred) (some x)

/-- `task_fork`: an error before it comes to the credentials, or a child with a copy. -/
def taskFork (s : State) (task : Task) (err : Option Int) (mem : Option Nat) : Option State :=
  match err, mem, task.cred with
  | some _, _, _ => some s
  | none, none, _ => some (addTask s none)
  | none, some _, none => none
  | none, some x, some c => some (addTask (credAlloc s x (s.obj c)) (some x))

inductive Label where
  | create (made : Bool) (mem : Option Nat)
  | fork (t : Nat) (err : Option Int) (mem : Option Nat)
  | call (t : Nat) (mem : Option Nat) (a : Call)
  | exit (t : Nat)                                        -- `do_exit`
  | reap (t : Nat)                                        -- `reap_zombie`

/-- What `kmalloc` is to give the step. -/
def Label.mem : Label → Option Nat
  | .create _ mem | .fork _ _ mem | .call _ mem _ => mem
  | _ => none

def act (s : State) : Label → Option State
  | .create made mem => some (taskCreate s made mem)
  | .fork t err mem => (running s t).bind fun task => taskFork s task err mem
  | .call t mem a => (running s t).bind fun task => (call s t task mem a).map Prod.snd
  | .exit t => (running s t).map fun task => s.setTask t (some { task with zombie := true })
  | .reap t => (s.tasks t).bind fun task => if task.zombie then some (s.setTask t none) else none

/-- `kmalloc` gives what is free. -/
def step (s : State) (a : Label) : Option State :=
  if ∀ x ∈ a.mem, s.pool.count x = none then act s a else none

/-- `init_task`, with its `cred_t`. -/
def boot (x : Nat) (c : Cred) : State :=
  addTask (credAlloc ⟨0, fun _ => none, ⟨fun _ => none, false⟩, fun _ => zeroCred⟩ x c) (some x)

/-- The system from the boot on; `idle_task`, which has no `real_cred` and makes no call, is not among its tasks. -/
def machine : Machine State Label where
  init s := ∃ x c, s = boot x c
  step := step

/-! ## The law -/

/-- A task is one reference to each `cred_t` it points to. -/
def Task.held (task : Task) : List Nat :=
  if task.cred = task.realCred then task.cred.toList else task.cred.toList ++ task.realCred.toList

def held (s : State) (t : Nat) : List Nat := (s.tasks t).elim [] Task.held

def Live (s : State) (o : Option Nat) : Prop := ∃ x ∈ o, (s.pool.count x).isSome = true

/-- **Both pointers of every task refer to a live `cred_t`, and a `cred_t` is there, with its `usage`, as long as tasks
hold it.** -/
structure Law (s : State) : Prop where
  cred : ∀ t task, s.tasks t = some task → Live s task.cred
  realCred : ∀ t task, s.tasks t = some task → Live s task.realCred
  usage : s.pool.Balanced (gather (held s) s.ntasks)

/-- The tasks' pointers and the counts are those of before. -/
structure Untouched (s s' : State) : Prop where
  ntasks : s'.ntasks = s.ntasks
  tasks : s'.tasks = s.tasks
  pool : s'.pool = s.pool

/-- The step returns an error to its caller. -/
def Fails (s : State) : Label → Prop
  | .create made _ => made = false
  | .fork _ err _ => err ≠ none
  | .call t mem a => ∃ task ∈ running s t, ∃ r ∈ call s t task mem a, r.1 < 0
  | _ => False

/-- A call of `cred.c` that the capabilities or the ids allow. -/
def Passes (c : Cred) : Call → Prop
  | .setuid uid => hasCap c capSetuid = true ∨ uid = c.user.id ∨ uid = c.user.sid
  | .setgid gid => hasCap c capSetgid = true ∨ gid = c.group.id ∨ gid = c.group.sid
  | .setresuid ruid euid suid =>
    hasCap c capSetuid = true ∨ ¬NotOwn c.user ruid ∧ ¬NotOwn c.user euid ∧ ¬NotOwn c.user suid
  | .setresgid rgid egid sgid =>
    hasCap c capSetgid = true ∨ ¬NotOwn c.group rgid ∧ ¬NotOwn c.group egid ∧ ¬NotOwn c.group sgid
  | .setgroups size _ => (0 ≤ size ∧ size ≤ ngroupsMax) ∧ hasCap c capSetgid = true
  | _ => False

/-- **A step that keeps the books**: a new task gets its credentials, no call of `cred.c` goes through, and no zombie is
reaped. -/
def Keeps (s : State) : Label → Prop
  | .create made mem => made = true → mem ≠ none
  | .fork _ err mem => err = none → mem ≠ none
  | .call t mem a => ∀ task ∈ running s t, ∀ x ∈ task.cred, Passes (s.obj x) a → mem = none
  | .exit _ => True
  | .reap _ => False

/-! ## What a call does -/

section Calls

variable {s s' : State} {t : Nat} {task task' : Task} {mem : Option Nat} {edit : Cred → Option Cred}
  {ids : Ids} {privileged : Bool} {r : Int} {a : Call}

theorem Untouched.refl (s : State) : Untouched s s := ⟨rfl, rfl, rfl⟩

/-- Task `t` becomes `task'`, with a new `x`, and drops `c`. -/
structure Installed (s : State) (t : Nat) (task' : Task) (c x : Nat) (s' : State) : Prop where
  ntasks : s'.ntasks = s.ntasks
  tasks : s'.tasks = Function.update s.tasks t (some task')
  pool : s'.pool = (s.pool.alloc x).dec c

/-- A copy that is freed again leaves no trace in the counts. -/
theorem free_alloc {p : Pool} {x : Nat} (h : p.count x = none) : (p.alloc x).free x = p := by
  have h1 : (p.alloc x).count x = some 1 := Function.update_self x _ _
  unfold Pool.free
  rw [h1]
  dsimp only [Pool.alloc]
  rw [Function.update_idem, ← h, Function.update_eq_self]

/-- **A call of `cred.c`** fails and leaves the books, or installs its copy in `cred`. -/
theorem commitCall_cases (hfree : ∀ x ∈ mem, s.pool.count x = none) (h : commitCall s t task mem edit = (r, s')) :
    (Untouched s s' ∧ ∀ c ∈ task.cred, (edit (s.obj c)).isSome = true → mem = none) ∨
    ∃ c x, task.cred = some c ∧ mem = some x ∧ (edit (s.obj c)).isSome = true ∧ 0 ≤ r ∧
      Installed s t { task with cred := some x } c x s' := by
  unfold commitCall prepareCred at h
  cases hc : task.cred with
  | none =>
    simp only [hc, Prod.mk.injEq] at h
    obtain ⟨-, rfl⟩ := h
    exact .inl ⟨.refl s, nofun⟩
  | some c =>
    cases mem with
    | none =>
      simp only [hc, Prod.mk.injEq] at h
      obtain ⟨-, rfl⟩ := h
      exact .inl ⟨.refl s, fun _ _ _ => rfl⟩
    | some x =>
      simp only [hc, credAlloc, Function.update_self] at h
      cases he : edit (s.obj c) with
      | none =>
        simp only [he, Prod.mk.injEq] at h
        obtain ⟨-, rfl⟩ := h
        refine .inl ⟨⟨rfl, rfl, free_alloc (hfree x rfl)⟩, fun c' hc' hsome => ?_⟩
        rw [← Option.some.inj hc', he] at hsome
        cases hsome
      | some new =>
        simp only [he, Prod.mk.injEq] at h
        obtain ⟨rfl, rfl⟩ := h
        refine .inr ⟨c, x, rfl, rfl, by rw [he]; rfl, Int.le_refl 0, rfl, rfl, ?_⟩
        rw [commitCred, hc]
        rfl

/-- **A call of `syscall_stubs.c`** has no memory, or installs its copy under both names. -/
theorem writeCall_cases {edit : Cred → Cred} {made : Bool} (h : writeCall s t task mem edit = some (made, s')) :
    (made = false ∧ Untouched s s') ∨
    ∃ c x, task.cred = some c ∧ mem = some x ∧ made = true ∧
      Installed s t { task with cred := some x, realCred := some x } c x s' := by
  unfold writeCall at h
  cases mem with
  | none =>
    cases h
    exact .inl ⟨rfl, .refl s⟩
  | some x =>
    cases hc : task.cred with
    | none =>
      rw [hc] at h
      cases h
    | some c =>
      rw [hc] at h
      cases h
      exact .inr ⟨c, x, rfl, rfl, rfl, rfl, rfl, rfl⟩

theorem isSome_setId (x : UInt32) : (setId privileged ids x).isSome = true ↔ privileged = true ∨ x = ids.id ∨ x = ids.sid := by
  unfold setId
  cases privileged with
  | true => exact iff_of_true rfl (.inl rfl)
  | false =>
    rw [if_neg Bool.false_ne_true]
    by_cases hx : x ≠ ids.id ∧ x ≠ ids.sid
    · rw [if_pos hx]
      exact iff_of_false nofun (by simpa using hx)
    · rw [if_neg hx]
      refine iff_of_true rfl (.inr ?_)
      by_cases hid : x = ids.id
      · exact .inl hid
      · exact .inr (Decidable.byContradiction fun hsid => hx ⟨hid, hsid⟩)

theorem isSome_setResId (x y z : UInt32) : (setResId privileged ids x y z).isSome = true ↔
    privileged = true ∨ ¬NotOwn ids x ∧ ¬NotOwn ids y ∧ ¬NotOwn ids z := by
  unfold setResId
  by_cases h : privileged = false ∧ (NotOwn ids x ∨ NotOwn ids y ∨ NotOwn ids z)
  · rw [if_pos h, h.1]
    refine iff_of_false nofun ?_
    rintro (hp | ⟨hx, hy, hz⟩)
    · cases hp
    · exact h.2.elim hx (fun h => h.elim hy hz)
  · rw [if_neg h]
    refine iff_of_true rfl ?_
    cases privileged with
    | true => exact .inl rfl
    | false =>
      have hno : ¬(NotOwn ids x ∨ NotOwn ids y ∨ NotOwn ids z) := fun hn => h ⟨rfl, hn⟩
      exact .inr (by simpa only [not_or] using hno)

/-- **A call** leaves the books, installs a copy in `cred` alone when it passes its test, or one under both names. -/
theorem call_cases (hfree : ∀ x ∈ mem, s.pool.count x = none) (h : call s t task mem a = some (r, s')) :
    (Untouched s s' ∧ ∀ c ∈ task.cred, Passes (s.obj c) a → mem = none) ∨
    (∃ c x, task.cred = some c ∧ mem = some x ∧ Passes (s.obj c) a ∧ 0 ≤ r ∧
      Installed s t { task with cred := some x } c x s') ∨
    ∃ c x, task.cred = some c ∧ mem = some x ∧ ¬Passes (s.obj c) a ∧ 0 ≤ r ∧
      Installed s t { task with cred := some x, realCred := some x } c x s' := by
  have hcommit : ∀ {edit : Cred → Option Cred}, (∀ c, (edit c).isSome = true ↔ Passes c a) →
      commitCall s t task mem edit = (r, s') →
      (Untouched s s' ∧ ∀ c ∈ task.cred, Passes (s.obj c) a → mem = none) ∨
      (∃ c x, task.cred = some c ∧ mem = some x ∧ Passes (s.obj c) a ∧ 0 ≤ r ∧
        Installed s t { task with cred := some x } c x s') := by
    intro edit hedit h
    simpa only [hedit] using commitCall_cases hfree h
  have hwrite : ∀ {edit : Cred → Cred} {f : Bool × State → Int × State},
      (∀ made u, (f (made, u)).2 = u) → (∀ u, 0 ≤ (f (true, u)).1) → (∀ c, ¬Passes c a) →
      (writeCall s t task mem edit).map f = some (r, s') →
      (Untouched s s' ∧ ∀ c ∈ task.cred, Passes (s.obj c) a → mem = none) ∨
      ∃ c x, task.cred = some c ∧ mem = some x ∧ ¬Passes (s.obj c) a ∧ 0 ≤ r ∧
        Installed s t { task with cred := some x, realCred := some x } c x s' := by
    intro edit f hf hr hno h
    obtain ⟨⟨made, u⟩, hu, hres⟩ := Option.map_eq_some_iff.1 h
    have hs' : u = s' := by
      rw [← hf made u, hres]
    subst hs'
    rcases writeCall_cases hu with ⟨-, hsame⟩ | ⟨c, x, hc, hx, rfl, hin⟩
    · exact .inl ⟨hsame, fun c _ hp => absurd hp (hno _)⟩
    · refine .inr ⟨c, x, hc, hx, hno _, ?_, hin⟩
      have h0 := hr u
      rwa [hres] at h0
  cases a with
  | setuid uid =>
    refine (hcommit (fun c => ?_) (Option.some.inj h)).imp_right .inl
    rw [Option.isSome_map, isSome_setId]
    rfl
  | setgid gid =>
    refine (hcommit (fun c => ?_) (Option.some.inj h)).imp_right .inl
    rw [Option.isSome_map, isSome_setId]
    rfl
  | setresuid ruid euid suid =>
    refine (hcommit (fun c => ?_) (Option.some.inj h)).imp_right .inl
    rw [Option.isSome_map, isSome_setResId]
    rfl
  | setresgid rgid egid sgid =>
    refine (hcommit (fun c => ?_) (Option.some.inj h)).imp_right .inl
    rw [Option.isSome_map, isSome_setResId]
    rfl
  | setgroups size list =>
    simp only [call, sysSetgroups, Option.some.injEq] at h
    by_cases hs : size < 0 ∨ ngroupsMax < size
    · rw [if_pos hs] at h
      cases h
      refine .inl ⟨.refl s, fun c _ hp => ?_⟩
      have hsize := hp.1
      omega
    · rw [if_neg hs] at h
      refine (hcommit (fun c => ?_) h).imp_right .inl
      have hsize : 0 ≤ size ∧ size ≤ ngroupsMax := by omega
      rw [Passes, and_iff_right hsize]
      split <;> simp [*]
  | setreuid ruid euid => exact (hwrite (fun _ _ => rfl) (fun _ => Int.le_refl 0) (fun _ => id) h).imp_right .inr
  | setregid rgid egid => exact (hwrite (fun _ _ => rfl) (fun _ => Int.le_refl 0) (fun _ => id) h).imp_right .inr
  | setfsuid fsuid =>
    refine (hwrite (fun _ _ => rfl) (fun _ => ?_) (fun _ => id) h).imp_right .inr
    dsimp only
    split <;> omega
  | setfsgid fsgid =>
    refine (hwrite (fun _ _ => rfl) (fun _ => ?_) (fun _ => id) h).imp_right .inr
    dsimp only
    split <;> omega

end Calls

/-! ## The books -/

variable {s s' : State} {t c x : Nat} {task task' : Task} {a : Label}

theorem setTask_tasks (s : State) (t : Nat) (o : Option Task) :
    (s.setTask t o).tasks = Function.update s.tasks t o := rfl

theorem running_some (h : running s t = some task) : s.tasks t = some task := by
  rw [running, Option.filter_eq_some_iff] at h
  exact h.1

theorem held_of (h : s.tasks t = some task) : held s t = task.held := by
  rw [held, h]
  rfl

/-- The pointers of a task are its references. -/
theorem Task.mem_held {y : Nat} : y ∈ task.held ↔ task.cred = some y ∨ task.realCred = some y := by
  unfold Task.held
  by_cases h : task.cred = task.realCred
  · rw [if_pos h, ← h, or_self]
    exact Option.mem_toList
  · rw [if_neg h, List.mem_append]
    exact or_congr Option.mem_toList Option.mem_toList

/-! ## What the credentials say -/

/-- What the credentials of task `t` say. -/
def credOf (s : State) (t : Nat) : Option Cred := ((s.tasks t).bind Task.cred).map s.obj

/-- The same call on a task that has its own copy. -/
def Call.on (mem : Bool) : Call → Cred.Call
  | .setuid uid => .setuid mem uid
  | .setgid gid => .setgid mem gid
  | .setresuid ruid euid suid => .setresuid mem ruid euid suid
  | .setresgid rgid egid sgid => .setresgid mem rgid egid sgid
  | .setgroups size list => .setgroups mem size list
  | .setreuid ruid euid => .setreuid mem ruid euid
  | .setregid rgid egid => .setregid mem rgid egid
  | .setfsuid fsuid => .setfsuid mem fsuid
  | .setfsgid fsgid => .setfsgid mem fsgid

theorem credOf_of (ht : s.tasks t = some task) (hc : task.cred = some c) : credOf s t = some (s.obj c) := by
  rw [credOf, ht, Option.bind_some, hc]
  rfl

section Says

variable {mem : Option Nat}

theorem commitCall_change {e : Cred → Option Cred} (ht : s.tasks t = some task) (hc : task.cred = some c)
    (hne : ∀ x ∈ mem, c ≠ x) : ((commitCall s t task mem e).1, credOf (commitCall s t task mem e).2 t) =
      ((change mem.isSome (s.obj c) (e (s.obj c))).1, some (change mem.isSome (s.obj c) (e (s.obj c))).2) := by
  unfold commitCall prepareCred
  cases mem with
  | none =>
    rw [hc]
    exact Prod.ext rfl (credOf_of ht hc)
  | some x =>
    simp only [hc, credAlloc, Function.update_self]
    cases e (s.obj c) with
    | none =>
      have hsays : credOf { credAlloc s x (s.obj c) with pool := (s.pool.alloc x).free x } t = some (s.obj c) := by
        rw [credOf, show (credAlloc s x (s.obj c)).tasks t = some task from ht, Option.bind_some, hc]
        exact congrArg some (Function.update_of_ne (hne x rfl) _ _)
      exact Prod.ext rfl hsays
    | some new =>
      refine Prod.ext rfl ((credOf_of (c := x) (Function.update_self _ _ _) rfl).trans ?_)
      exact congrArg some (Function.update_self _ _ _)

theorem writeCall_change {edit : Cred → Cred} {made : Bool} (ht : s.tasks t = some task) (hc : task.cred = some c)
    (h : writeCall s t task mem edit = some (made, s')) :
    ((orEnomem (made, s')).1, credOf s' t) =
      ((change mem.isSome (s.obj c) (some (edit (s.obj c)))).1,
        some (change mem.isSome (s.obj c) (some (edit (s.obj c)))).2) := by
  unfold writeCall at h
  cases mem with
  | none =>
    cases h
    exact Prod.ext rfl (credOf_of ht hc)
  | some x =>
    rw [hc] at h
    cases h
    refine Prod.ext rfl ((credOf_of (c := x) (Function.update_self _ _ _) rfl).trans ?_)
    exact congrArg some (Function.update_self _ _ _)

/-- **A call returns, and leaves in the task's credentials, what it does to a task's own copy.** -/
theorem credOf_call {b : Call} {r : Int} (ht : s.tasks t = some task) (hc : task.cred = some c) (hne : ∀ x ∈ mem, c ≠ x)
    (h : call s t task mem b = some (r, s')) :
    r = (credStep (s.obj c) (b.on mem.isSome)).1 ∧ credOf s' t = some (credStep (s.obj c) (b.on mem.isSome)).2 := by
  have hcommit : ∀ {edit : Cred → Option Cred}, commitCall s t task mem edit = (r, s') →
      r = (change mem.isSome (s.obj c) (edit (s.obj c))).1 ∧
        credOf s' t = some (change mem.isSome (s.obj c) (edit (s.obj c))).2 := by
    intro edit he
    have hchange := commitCall_change ht hc hne (e := edit)
    rw [he] at hchange
    exact Prod.mk.inj hchange
  have hwrite : ∀ {edit : Cred → Cred}, (writeCall s t task mem edit).map orEnomem = some (r, s') →
      r = (change mem.isSome (s.obj c) (some (edit (s.obj c)))).1 ∧
        credOf s' t = some (change mem.isSome (s.obj c) (some (edit (s.obj c)))).2 := by
    intro edit he
    obtain ⟨⟨made, u⟩, hu, hres⟩ := Option.map_eq_some_iff.1 he
    obtain ⟨rfl, rfl⟩ := Prod.mk.inj hres
    exact Prod.mk.inj (writeCall_change ht hc hu)
  cases b with
  | setuid uid => exact hcommit (Option.some.inj h)
  | setgid gid => exact hcommit (Option.some.inj h)
  | setresuid ruid euid suid => exact hcommit (Option.some.inj h)
  | setresgid rgid egid sgid => exact hcommit (Option.some.inj h)
  | setgroups size list =>
    simp only [call, CredLife.sysSetgroups, Option.some.injEq] at h
    simp only [Call.on, credStep, Cred.sysSetgroups]
    by_cases hs : size < 0 ∨ ngroupsMax < size
    · rw [if_pos hs] at h ⊢
      cases h
      exact ⟨rfl, credOf_of ht hc⟩
    · rw [if_neg hs] at h ⊢
      exact hcommit h
  | setreuid ruid euid => exact hwrite h
  | setregid rgid egid => exact hwrite h
  | setfsuid fsuid =>
    obtain ⟨⟨made, u⟩, hu, hres⟩ := Option.map_eq_some_iff.1 h
    obtain ⟨hr, rfl⟩ := Prod.mk.inj hres
    simp only [hc] at hr
    exact ⟨hr.symm, (Prod.mk.inj (writeCall_change ht hc hu)).2⟩
  | setfsgid fsgid =>
    obtain ⟨⟨made, u⟩, hu, hres⟩ := Option.map_eq_some_iff.1 h
    obtain ⟨hr, rfl⟩ := Prod.mk.inj hres
    simp only [hc] at hr
    exact ⟨hr.symm, (Prod.mk.inj (writeCall_change ht hc hu)).2⟩

end Says

/-! ## The steps -/

/-- **The state of a run that keeps the books**: the two pointers of a task are one. -/
structure Inv (s : State) : Prop where
  below : ∀ t task, s.tasks t = some task → t < s.ntasks
  paired : ∀ t task, s.tasks t = some task → ∃ x, task.cred = some x ∧ task.realCred = some x
  usage : s.pool.Balanced (gather (held s) s.ntasks)

theorem Inv.live (h : Inv s) (ht : s.tasks t = some task) {y : Nat} (hy : y ∈ task.held) :
    (s.pool.count y).isSome = true := by
  rw [h.usage.isSome_iff, mem_gather]
  exact ⟨t, h.below t task ht, by rwa [held_of ht]⟩

theorem Inv.law (h : Inv s) : Law s where
  cred t task ht := by
    obtain ⟨x, hx, -⟩ := h.paired t task ht
    exact ⟨x, hx, h.live ht (Task.mem_held.2 (.inl hx))⟩
  realCred t task ht := by
    obtain ⟨x, -, hx⟩ := h.paired t task ht
    exact ⟨x, hx, h.live ht (Task.mem_held.2 (.inr hx))⟩
  usage := h.usage

theorem Untouched.held_eq (h : Untouched s s') : held s' = held s := by
  funext t
  rw [held, held, h.tasks]

theorem Inv.untouched (h : Inv s) (hu : Untouched s s') : Inv s' where
  below t task ht := by
    rw [hu.tasks] at ht
    rw [hu.ntasks]
    exact h.below t task ht
  paired t task ht := by
    rw [hu.tasks] at ht
    exact h.paired t task ht
  usage := by
    rw [hu.held_eq, hu.ntasks, hu.pool]
    exact h.usage

theorem addTask_tasks (s : State) (x : Nat) (c : Cred) (o : Option Nat) :
    (addTask (credAlloc s x c) o).tasks = Function.update s.tasks s.ntasks (some ⟨o, o, false⟩) := rfl

theorem Task.held_pair (hc : task.cred = some x) (hr : task.realCred = some x) : task.held = [x] := by
  rw [Task.held, if_pos (hc.trans hr.symm), hc]
  rfl

/-- **A new task with new credentials.** -/
theorem Inv.addTask (h : Inv s) (hx : s.pool.count x = none) (c : Cred) : Inv (addTask (credAlloc s x c) (some x)) where
  below t task ht := by
    rw [addTask_tasks] at ht
    by_cases htn : t = s.ntasks
    · rw [htn]
      exact Nat.lt_succ_self s.ntasks
    · rw [Function.update_of_ne htn] at ht
      exact Nat.lt_succ_of_lt (h.below t task ht)
  paired t task ht := by
    rw [addTask_tasks] at ht
    by_cases htn : t = s.ntasks
    · rw [htn, Function.update_self] at ht
      cases ht
      exact ⟨x, rfl, rfl⟩
    · rw [Function.update_of_ne htn] at ht
      exact h.paired t task ht
  usage := by
    have hnew : held (CredLife.addTask (credAlloc s x c) (some x)) s.ntasks = [x] := by
      rw [held, addTask_tasks, Function.update_self]
      exact Task.held_pair rfl rfl
    have hold : gather (held (CredLife.addTask (credAlloc s x c) (some x))) s.ntasks = gather (held s) s.ntasks := by
      refine gather_congr fun j hj => ?_
      rw [held, held, addTask_tasks, Function.update_of_ne (Nat.ne_of_lt hj)]
    show (s.pool.alloc x).Balanced (gather _ (s.ntasks + 1))
    rw [gather, hnew, hold]
    exact (h.usage.alloc hx).perm (List.perm_append_singleton x _).symm

/-- What one task refers to, and the others. -/
theorem gather_update {o : Option Task} (ht : s.tasks t = some task) (hlt : t < s.ntasks)
    (hs : s'.tasks = Function.update s.tasks t o) :
    (task.held ++ gather (held s') s.ntasks).Perm ((o.elim [] Task.held) ++ gather (held s) s.ntasks) := by
  have hsame : ∀ j, j < s.ntasks → j ≠ t → held s' j = held s j := fun j _ hj => by
    rw [held, held, hs, Function.update_of_ne hj]
  have hnew : held s' t = o.elim [] Task.held := by
    rw [held, hs, Function.update_self]
  rw [← held_of ht, ← hnew]
  exact gather_set hlt hsame

theorem Inv.below_update {o : Option Task} (h : Inv s) (ht : s.tasks t = some task) (hn : s'.ntasks = s.ntasks)
    (hs : s'.tasks = Function.update s.tasks t o) : ∀ u task, s'.tasks u = some task → u < s'.ntasks := by
  intro u task₁ hu
  rw [hn]
  by_cases hut : u = t
  · rw [hut]
    exact h.below t task ht
  · rw [hs, Function.update_of_ne hut] at hu
    exact h.below u task₁ hu

theorem Inv.paired_update (h : Inv s) (hs : s'.tasks = Function.update s.tasks t (some task'))
    (hp : ∃ x, task'.cred = some x ∧ task'.realCred = some x) :
    ∀ u task, s'.tasks u = some task → ∃ x, task.cred = some x ∧ task.realCred = some x := by
  intro u task₁ hu
  rw [hs] at hu
  by_cases hut : u = t
  · rw [hut, Function.update_self] at hu
    cases hu
    exact hp
  · rw [Function.update_of_ne hut] at hu
    exact h.paired u task₁ hu

/-- **A copy under both names** takes the place of what the task held. -/
theorem Inv.installed (h : Inv s) (ht : s.tasks t = some task) (hc : task.cred = some c) (hx : s.pool.count x = none)
    (hin : Installed s t { task with cred := some x, realCred := some x } c x s') : Inv s' where
  below := h.below_update ht hin.ntasks hin.tasks
  paired := h.paired_update hin.tasks ⟨x, rfl, rfl⟩
  usage := by
    obtain ⟨y, hy, hr⟩ := h.paired t task ht
    have hyc : y = c := Option.some.inj (hy.symm.trans hc)
    subst hyc
    have hperm := gather_update ht (h.below t task ht) hin.tasks
    rw [Task.held_pair hc hr, Option.elim_some, Task.held_pair rfl rfl] at hperm
    rw [hin.pool, hin.ntasks]
    exact ((h.usage.alloc hx).perm hperm.symm).dec

/-- **A copy in `cred` alone**: `real_cred` is left with what was dropped, and the books are wrong. -/
theorem Inv.not_usage_of_installed (h : Inv s) (ht : s.tasks t = some task) (hc : task.cred = some c)
    (hx : s.pool.count x = none) (hin : Installed s t { task with cred := some x } c x s') : ¬Law s' := by
  intro hlaw
  obtain ⟨y, hy, hr⟩ := h.paired t task ht
  have hyc : y = c := Option.some.inj (hy.symm.trans hc)
  subst hyc
  have hlive := h.live ht (Task.mem_held.2 (.inl hc))
  have hne : x ≠ y := by
    rintro rfl
    rw [hx] at hlive
    cases hlive
  have hperm := gather_update ht (h.below t task ht) hin.tasks
  have hnew : Task.held { task with cred := some x } = [x, y] := by
    rw [Task.held, hr, if_neg (fun he => hne (Option.some.inj he))]
    rfl
  rw [Task.held_pair hc hr, Option.elim_some, hnew] at hperm
  have husage := hlaw.usage
  rw [hin.pool, hin.ntasks] at husage
  have hthere : s.pool.Balanced (y :: (gather (held s) s.ntasks).erase y) := by
    refine h.usage.perm (List.perm_cons_erase ?_)
    rwa [← h.usage.isSome_iff]
  have hdec := ((hthere.alloc hx).perm (List.Perm.swap y x _)).dec
  have hcount := husage.count_eq hdec y
  have hboth := hperm.count_eq y
  simp only [List.cons_append, List.nil_append, List.count_cons_self, List.count_cons_of_ne hne,
    List.count_erase_self] at hcount hboth
  have hpos := List.count_pos_iff.2 ((h.usage.isSome_iff).1 hlive)
  omega
/-- A zombie keeps its credentials. -/
theorem Inv.exit (h : Inv s) (ht : s.tasks t = some task) : Inv (s.setTask t (some { task with zombie := true })) where
  below := h.below_update ht rfl (setTask_tasks s t _)
  paired := h.paired_update (setTask_tasks s t _) (h.paired t task ht)
  usage := h.usage.perm ((List.perm_append_left_iff _).1
    (gather_update ht (h.below t task ht) (setTask_tasks s t _))).symm

/-- **A reaped task** leaves its count behind. -/
theorem Inv.not_law_of_reap (h : Inv s) (ht : s.tasks t = some task) : ¬Law (s.setTask t none) := by
  intro hlaw
  obtain ⟨x, hc, hr⟩ := h.paired t task ht
  have hperm := (gather_update ht (h.below t task ht) (setTask_tasks s t none)).count_eq x
  have hcount := hlaw.usage.count_eq h.usage x
  rw [Task.held_pair hc hr, Option.elim_none, List.nil_append, List.singleton_append, List.count_cons_self] at hperm
  change (gather (held (s.setTask t none)) s.ntasks).count x = _ at hcount
  omega

/-- A new task without credentials. -/
theorem not_law_addTask_none (s : State) : ¬Law (addTask s none) := by
  intro hlaw
  obtain ⟨x, hx, -⟩ := hlaw.cred s.ntasks ⟨none, none, false⟩ (Function.update_self _ _ _)
  cases hx

theorem step_some (h : step s a = some s') : (∀ x ∈ a.mem, s.pool.count x = none) ∧ act s a = some s' := by
  unfold step at h
  by_cases hf : ∀ x ∈ a.mem, s.pool.count x = none
  · rw [if_pos hf] at h
    exact ⟨hf, h⟩
  · rw [if_neg hf] at h
    cases h

/-- **One step of a run that has kept the books** keeps them on exactly when the condition holds. -/
theorem Inv.step (h : Inv s) (hs : step s a = some s') : (Keeps s a → Inv s') ∧ (Law s' → Keeps s a) := by
  obtain ⟨hfree, hact⟩ := step_some hs
  cases a with
  | create made mem =>
    simp only [act, Option.some.injEq] at hact
    subst hact
    cases made with
    | false => exact ⟨fun _ => h, fun _ hm => by cases hm⟩
    | true =>
      cases mem with
      | none => exact ⟨fun hk => absurd rfl (hk rfl), fun hlaw => absurd hlaw (not_law_addTask_none s)⟩
      | some x => exact ⟨fun _ => h.addTask (hfree x rfl) zeroCred, fun _ _ => nofun⟩
  | fork t err mem =>
    obtain ⟨task, -, hfork⟩ := Option.bind_eq_some_iff.1 hact
    unfold taskFork at hfork
    split at hfork
    · cases hfork
      exact ⟨fun _ => h, fun _ he => by cases he⟩
    · cases hfork
      exact ⟨fun hk => absurd rfl (hk rfl), fun hlaw => absurd hlaw (not_law_addTask_none s)⟩
    · cases hfork
    · cases hfork
      exact ⟨fun _ => h.addTask (hfree _ rfl) _, fun _ _ => nofun⟩
  | call t mem b =>
    obtain ⟨task, hrun, hcall⟩ := Option.bind_eq_some_iff.1 hact
    obtain ⟨⟨r, u⟩, hu, rfl⟩ := Option.map_eq_some_iff.1 hcall
    have ht := running_some hrun
    rcases call_cases hfree hu with ⟨hsame, hno⟩ | ⟨c, x, hc, rfl, hp, -, hin⟩ | ⟨c, x, hc, rfl, hp, -, hin⟩
    · refine ⟨fun _ => h.untouched hsame, fun _ task' htask' => ?_⟩
      rw [Option.mem_def, hrun] at htask'
      cases htask'
      exact hno
    · refine ⟨fun hk => ?_, fun hlaw => absurd hlaw (h.not_usage_of_installed ht hc (hfree x rfl) hin)⟩
      have hnone := hk task hrun c hc hp
      cases hnone
    · refine ⟨fun _ => h.installed ht hc (hfree x rfl) hin, fun _ task' htask' c' hc' hp' => ?_⟩
      rw [Option.mem_def, hrun] at htask'
      cases htask'
      rw [Option.mem_def, hc] at hc'
      cases hc'
      exact absurd hp' hp
  | exit t =>
    obtain ⟨task, hrun, rfl⟩ := Option.map_eq_some_iff.1 hact
    exact ⟨fun _ => h.exit (running_some hrun), fun _ => trivial⟩
  | reap t =>
    obtain ⟨task, ht, hreap⟩ := Option.bind_eq_some_iff.1 hact
    by_cases hz : task.zombie = true
    · rw [if_pos hz] at hreap
      cases hreap
      exact ⟨False.elim, fun hlaw => absurd hlaw (h.not_law_of_reap ht)⟩
    · rw [if_neg hz] at hreap
      cases hreap

theorem inv_boot (x : Nat) (c : Cred) : Inv (boot x c) := by
  refine Inv.addTask ⟨fun _ _ ht => ?_, fun _ _ ht => ?_, rfl, fun _ => rfl⟩ rfl c
  · cases ht
  · cases ht

/-- **A step that fails leaves the pointers and the counts.** -/
theorem untouched_of_fails (hs : step s a = some s') (hf : Fails s a) : Untouched s s' := by
  obtain ⟨hfree, hact⟩ := step_some hs
  cases a with
  | create made mem =>
    cases hf
    cases hact
    exact .refl s
  | fork t err mem =>
    obtain ⟨task, -, hfork⟩ := Option.bind_eq_some_iff.1 hact
    cases err with
    | none => exact absurd rfl hf
    | some e =>
      cases hfork
      exact .refl s
  | call t mem b =>
    obtain ⟨task, hrun, ⟨r, u⟩, hu, hneg⟩ := hf
    have hres : u = s' := by
      simp only [act, Option.mem_def.1 hrun, Option.bind_some, Option.mem_def.1 hu, Option.map_some,
        Option.some.injEq] at hact
      exact hact
    subst hres
    rcases call_cases hfree hu with ⟨hsame, -⟩ | ⟨c, x, -, -, -, hr, -⟩ | ⟨c, x, -, -, -, hr, -⟩
    · exact hsame
    · exact absurd hneg (Int.not_lt.2 hr)
    · exact absurd hneg (Int.not_lt.2 hr)
  | exit t => exact hf.elim
  | reap t => exact hf.elim

/-- **A run keeps the books throughout exactly when every new task gets its credentials, no call of `cred.c` goes through
and no zombie is reaped**; a call that fails leaves them in any state. -/
theorem always_law_iff_runOk (l : List Label) (s s' : State) (h0 : machine.init s) (h : machine.run s l = some s') :
    (machine.Always Law s l ↔ machine.RunOk Keeps s l s') ∧
      ∀ u a u', machine.step u a = some u' → Fails u a → Untouched u u' := by
  obtain ⟨x, c, rfl⟩ := h0
  refine ⟨?_, fun u a u' hu hf => untouched_of_fails hu hf⟩
  exact machine.always_iff_runOk (fun _ hI => hI.law) (fun u a u' hI hu hk => (hI.step hu).1 hk)
    (fun u a u' hI hu hl => (hI.step hu).2 hl) l _ s' (inv_boot x c) h

/-! ## A `setuid` -/

/-- `setreuid(1000, 1000)` of the credentials `cred_alloc` leaves. -/
theorem credOf_call_setreuid : ∃ r s',
    call (boot 1 zeroCred) 0 ⟨some 1, some 1, false⟩ (some 2) (.setreuid 1000 1000) = some (r, s') ∧
    credOf s' 0 = some (credStep zeroCred (.setreuid true 1000 1000)).2 := by
  have hcall : call (boot 1 zeroCred) 0 ⟨some 1, some 1, false⟩ (some 2) (.setreuid 1000 1000) = some (_, _) := rfl
  exact ⟨_, _, hcall, (credOf_call (c := 1) rfl rfl (by decide) hcall).2⟩

/-- **After `setuid(0)` of the first task its `real_cred` is freed memory**: it has no capability, and the id is its
own. -/
theorem not_law_setuid : machine.init (boot 1 zeroCred) ∧
    ∃ s', machine.run (boot 1 zeroCred) [.call 0 (some 2) (.setuid 0)] = some s' ∧
      (∃ task, s'.tasks 0 = some task ∧ task.realCred = some 1) ∧ s'.pool.count 1 = none ∧ ¬Law s' := by
  refine ⟨⟨1, zeroCred, rfl⟩, _, rfl, ⟨_, rfl, rfl⟩, rfl, fun hlaw => ?_⟩
  obtain ⟨x, hx, hlive⟩ := hlaw.realCred 0 _ rfl
  cases hx
  cases hlive

/-- A fork, a `setreuid` of the child and its exit. -/
theorem always_law_iff_runOk_fork : ∃ s', machine.run (boot 1 zeroCred)
      [.fork 0 none (some 2), .call 1 (some 3) (.setreuid 1000 1000), .exit 1] = some s' ∧
    ((machine.Always Law (boot 1 zeroCred) [.fork 0 none (some 2), .call 1 (some 3) (.setreuid 1000 1000), .exit 1] ↔
        machine.RunOk Keeps (boot 1 zeroCred)
          [.fork 0 none (some 2), .call 1 (some 3) (.setreuid 1000 1000), .exit 1] s') ∧
      ∀ u a u', machine.step u a = some u' → Fails u a → Untouched u u') :=
  ⟨_, rfl, always_law_iff_runOk _ _ _ ⟨1, zeroCred, rfl⟩ rfl⟩

end CredLife
end Pico
