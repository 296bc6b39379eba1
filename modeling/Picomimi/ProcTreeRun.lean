import Picomimi.ProcTree
/-!
# ProcTreeRun — when tree and table are right

Each call is read as what it does to the four views of a task (`childrenOf`, `parentOf`, `pidOf`, `ppidOf`), to the
memory and to the table.  A dead task other than `init` has no children (`Inv.quiet`), so that reaping it leaves no one
with a parent that is gone.
-/
namespace Pico
namespace ProcTree

open Lib

/-- **What the steps keep.** -/
structure Inv (s : State) : Prop extends TreeOk s where
  idle : s.table 0 = some idleTask ∧ s.pidOf idleTask = some 0 ∧ s.parentOf idleTask = none
  init : s.table 1 = some initTask ∧ s.pidOf initTask = some 1
  pids : ∀ a, s.pidOf a = some 1 → a = initTask
  one : ∀ i j a, i < maxThreads → j < maxThreads → s.table i = some a → s.table j = some a → i = j
  nodup : ∀ p, (s.childrenOf p).Nodup
  quiet : ∀ p, s.isZombie p = true → p = initTask ∨ s.childrenOf p = []

variable {s s' : State} {k a b c p i n : Nat} {o : Option Nat} {f : Task → Task} {filter : Nat → Bool}

/-! ## Stores -/

theorem mem_modify (s : State) (a b : Nat) (f : Task → Task) :
    (s.modify a f).mem b = if b = a then (s.mem b).map f else s.mem b := by
  unfold State.modify
  by_cases h : b = a
  · subst h
    rw [if_pos rfl]
    exact Function.update_self _ _ _
  · rw [if_neg h]
    exact Function.update_of_ne h _ _

theorem isSome_modify : ((s.modify a f).mem b).isSome = (s.mem b).isSome := by
  rw [mem_modify]
  split
  · exact Option.isSome_map
  · rfl

/-- A view of a task that a store does not change. -/
theorem map_modify {α : Type} (g : Task → α) (h : ∀ t, g (f t) = g t) :
    ((s.modify a f).mem b).map g = (s.mem b).map g := by
  rw [mem_modify]
  split
  · rw [Option.map_map]
    exact congrFun (congrArg Option.map (funext h)) _
  · rfl

theorem pidOf_modify (h : ∀ t, (f t).pid = t.pid) : (s.modify a f).pidOf b = s.pidOf b := map_modify Task.pid h

theorem ppidOf_modify (h : ∀ t, (f t).ppid = t.ppid) : (s.modify a f).ppidOf b = s.ppidOf b := map_modify Task.ppid h

theorem childrenOf_modify (h : ∀ t, (f t).children = t.children) : (s.modify a f).childrenOf b = s.childrenOf b := by
  unfold State.childrenOf
  rw [map_modify Task.children h]

theorem parentOf_modify (h : ∀ t, (f t).parent = t.parent) : (s.modify a f).parentOf b = s.parentOf b := by
  unfold State.parentOf
  rw [mem_modify]
  split
  · cases s.mem b with
    | none => rfl
    | some t => exact h t
  · rfl

theorem isZombie_modify (h : ∀ t, (f t).zombie = t.zombie) : (s.modify a f).isZombie b = s.isZombie b := by
  unfold State.isZombie
  rw [mem_modify]
  split
  · cases s.mem b with
    | none => rfl
    | some t => exact h t
  · rfl

/-- The list of the task that is stored to. -/
theorem childrenOf_relink (g : List Nat → List Nat) (ha : (s.mem a).isSome) :
    (s.modify a fun t => { t with children := g t.children }).childrenOf b =
      if b = a then g (s.childrenOf b) else s.childrenOf b := by
  unfold State.childrenOf
  rw [mem_modify]
  by_cases hb : b = a
  · subst hb
    obtain ⟨t, ht⟩ := Option.isSome_iff_exists.1 ha
    rw [if_pos rfl, if_pos rfl, ht]
    rfl
  · rw [if_neg hb, if_neg hb]

/-! ## Slots -/

theorem firstSlot_spec {table : Nat → Option Nat} : ∀ {n i j : Nat}, firstSlot table o n i = some j →
    i ≤ j ∧ j < i + n ∧ table j = o
  | n + 1, i, j, h => by
    unfold firstSlot at h
    by_cases hi : table i = o
    · rw [if_pos hi] at h
      cases h
      exact ⟨Nat.le_refl i, by omega, hi⟩
    · rw [if_neg hi] at h
      obtain ⟨h1, h2, h3⟩ := firstSlot_spec h
      exact ⟨by omega, by omega, h3⟩

theorem findTaskFrom_init (h : Inv s) (n : Nat) : findTaskFrom s 1 (n + 2) 0 = some initTask := by
  have h0 : (s.table 0).bind s.pidOf ≠ some 1 := by
    rw [h.idle.1, Option.bind_some, h.idle.2.1]
    decide
  have h1 : (s.table 1).bind s.pidOf = some 1 := by
    rw [h.init.1]
    exact h.init.2
  rw [findTaskFrom, if_neg h0, findTaskFrom, if_pos h1]
  exact h.init.1

/-- **`find_task_by_pid(1)` finds `init`**, in the slot after the idle task's. -/
theorem findTaskByPid_init (h : Inv s) : findTaskByPid s 1 = some initTask := by
  have hm : maxThreads = 65534 + 2 := rfl
  unfold findTaskByPid
  rw [hm]
  exact findTaskFrom_init h 65534

/-! ## The tree in the invariant -/

theorem childrenOf_of_none (h : s.mem p = none) : s.childrenOf p = [] := by
  unfold State.childrenOf
  rw [h]
  rfl

theorem parentOf_of_none (h : s.mem c = none) : s.parentOf c = none := by
  unfold State.parentOf
  rw [h]
  rfl

theorem Inv.init_alive (h : Inv s) : (s.mem initTask).isSome :=
  (h.table initTask).1 ⟨1, by decide, h.init.1⟩

theorem Inv.idle_alive (h : Inv s) : (s.mem idleTask).isSome :=
  (h.table idleTask).1 ⟨0, by decide, h.idle.1⟩

/-- A child is allocated, and is none of the first two tasks. -/
theorem Inv.child_alive (h : Inv s) (hc : c ∈ s.childrenOf p) : (s.mem c).isSome ∧ s.parentOf c = some p ∧ c ≠ initTask := by
  obtain ⟨hne, hp⟩ := (h.child p c).1 hc
  refine ⟨?_, hp, hne⟩
  cases hm : s.mem c with
  | none =>
    rw [parentOf_of_none hm] at hp
    cases hp
  | some u => rfl

/-! ## Fork -/

/-- **A child linked to `k`**, as each view of the tasks shows it. -/
structure Linked (s s' : State) (k c pid : Nat) : Prop where
  children : ∀ p, s'.childrenOf p = if p = k then s.childrenOf p ++ [c] else s.childrenOf p
  parent : ∀ b, s'.parentOf b = if b = c then some k else s.parentOf b
  pid : ∀ b, s'.pidOf b = if b = c then some pid else s.pidOf b
  ppid : ∀ b, s'.ppidOf b = if b = c then s.pidOf k else s.ppidOf b
  zombie : ∀ b, s'.isZombie b = if b = c then s.isZombie k else s.isZombie b
  alive : ∀ b, (s'.mem b).isSome ↔ b = c ∨ (s.mem b).isSome

/-- The child's `task_struct_t`. -/
def childTask (k pid : Nat) (t : Task) : Task := { t with pid := pid, ppid := t.pid, parent := some k, children := [] }

/-- What `task_fork` has done by the time the memory is copied. -/
def linkChild (s : State) (k c pid : Nat) (t : Task) : State :=
  State.modify { s with mem := Function.update s.mem c (some (childTask k pid t)) } k
    fun t => { t with children := t.children ++ [c] }

theorem linkChild_mem {t : Task} (hk : s.mem k = some t) (hc : s.mem c = none) (pid b : Nat) :
    (linkChild s k c pid t).mem b = if b = c then some (childTask k pid t)
      else if b = k then some { t with children := t.children ++ [c] } else s.mem b := by
  have hne : k ≠ c := by
    rintro rfl
    rw [hc] at hk
    cases hk
  unfold linkChild
  rw [mem_modify]
  by_cases hbk : b = k
  · subst hbk
    rw [if_pos rfl, if_neg hne, if_pos rfl]
    simp only [Function.update_of_ne hne, hk, Option.map_some]
  · rw [if_neg hbk, if_neg hbk]
    exact Function.update_apply _ _ _ _

/-- A view of the tasks that does not look at the lists. -/
theorem linkChild_view {t : Task} (hk : s.mem k = some t) (hc : s.mem c = none) (pid : Nat) {β : Type} (g : Option Task → β)
    (hg : ∀ l, g (some { t with children := l }) = g (some t)) (b : Nat) :
    g ((linkChild s k c pid t).mem b) = if b = c then g (some (childTask k pid t)) else g (s.mem b) := by
  rw [linkChild_mem hk hc]
  by_cases hbc : b = c
  · rw [if_pos hbc, if_pos hbc]
  · rw [if_neg hbc, if_neg hbc]
    by_cases hbk : b = k
    · rw [if_pos hbk, hg, hbk, hk]
    · rw [if_neg hbk]

theorem linkChild_linked {t : Task} (hk : s.mem k = some t) (hc : s.mem c = none) (pid : Nat) :
    Linked s (linkChild s k c pid t) k c pid := by
  have hview := fun {β : Type} (g : Option Task → β) => linkChild_view hk hc pid g
  refine ⟨fun p => ?_, ?_, ?_, ?_, ?_, fun b => ?_⟩
  · unfold State.childrenOf
    rw [linkChild_mem hk hc]
    by_cases hpc : p = c
    · subst hpc
      have hne : p ≠ k := by
        rintro rfl
        rw [hc] at hk
        cases hk
      rw [if_pos rfl, if_neg hne, hc]
      rfl
    rw [if_neg hpc]
    by_cases hpk : p = k
    · subst hpk
      rw [if_pos rfl, if_pos rfl, hk]
      rfl
    · rw [if_neg hpk, if_neg hpk]
  · exact hview (fun o => o.bind Task.parent) fun _ => rfl
  · exact hview (fun o => o.map Task.pid) fun _ => rfl
  · intro b
    have hb := hview (fun o => o.map Task.ppid) (fun _ => rfl) b
    have hpk : s.pidOf k = some t.pid := by
      unfold State.pidOf
      rw [hk]
      rfl
    rw [hpk]
    exact hb
  · intro b
    have hb := hview (fun o => o.any Task.zombie) (fun _ => rfl) b
    have hzk : s.isZombie k = t.zombie := by
      unfold State.isZombie
      rw [hk]
      rfl
    rw [hzk]
    exact hb
  · rw [hview Option.isSome (fun _ => rfl) b]
    by_cases hbc : b = c
    · rw [if_pos hbc]
      exact iff_of_true rfl (.inl hbc)
    · rw [if_neg hbc]
      exact (or_iff_right hbc).symm

/-- **The tree with a child more.** -/
theorem Linked.child {pid : Nat} (hl : Linked s s' k c pid) (h : Inv s) (hc : s.mem c = none) (p a : Nat) :
    a ∈ s'.childrenOf p ↔ a ≠ initTask ∧ s'.parentOf a = some p := by
  have hno : a = c → ∀ p, a ∉ s.childrenOf p := by
    rintro rfl p hm
    have hs := (h.child_alive hm).1
    rw [hc] at hs
    cases hs
  have hinit : c ≠ initTask := by
    rintro rfl
    have hs := h.init_alive
    rw [hc] at hs
    cases hs
  rw [hl.children, hl.parent]
  by_cases hac : a = c
  · rw [if_pos hac]
    split
    · rename_i hpk
      subst hac hpk
      exact iff_of_true (List.mem_append_right _ (List.mem_singleton.2 rfl)) ⟨hinit, rfl⟩
    · rename_i hpk
      exact iff_of_false (hno hac p) fun hp => hpk (Option.some.inj hp.2).symm
  · rw [if_neg hac, ← h.child]
    split
    · rw [List.mem_append, List.mem_singleton]
      exact or_iff_left hac
    · exact Iff.rfl

/-- A fork's step is complete: nothing was allocated, or the memory was copied and the table has a free slot. -/
def ForkOk (s : State) (new pid : Option Nat) (mm : Bool) : Prop :=
  new = none ∨ pid = none ∨ (mm = true ∧ (firstSlot s.table none maxThreads 0).isSome)

instance (s : State) (new pid : Option Nat) (mm : Bool) : Decidable (ForkOk s new pid mm) :=
  inferInstanceAs (Decidable (_ ∨ _ ∨ _))

theorem taskFork_eq {t : Task} (hk : s.mem k = some t) (c pid : Nat) (mm : Bool) :
    taskFork s k (some c) (some pid) mm =
      if !mm then (linkChild s k c pid t).kfree c
      else
        match firstSlot s.table none maxThreads 0 with
        | none => linkChild s k c pid t
        | some i => { linkChild s k c pid t with table := Function.update s.table i (some c) } := by
  unfold taskFork
  rw [hk]
  rfl

/-- **A child in the tree and in a free slot.** -/
theorem Inv.linked (h : Inv s) {pid : Nat} (hl : Linked s s' k c pid) (hk : s.Live k) (hc : s.mem c = none) (hpid : 2 ≤ pid)
    (hi : i < maxThreads) (hfree : s.table i = none) (htab : s'.table = Function.update s.table i (some c))
    (horph : s'.orphans = s.orphans) : Inv s' := by
  have hdead : ∀ a, (s.mem a).isSome → a ≠ c := by
    rintro a ha rfl
    rw [hc] at ha
    cases ha
  have hic := hdead _ h.init_alive
  have hkc := hdead k hk.1
  have hslot : ∀ j a, s.table j = some a → j ≠ i := by
    rintro j a hj rfl
    rw [hfree] at hj
    cases hj
  have hmem : ∀ j a, s'.table j = some a ↔ (j = i ∧ a = c) ∨ s.table j = some a := by
    intro j a
    rw [htab, Function.update_apply]
    by_cases hji : j = i
    · rw [if_pos hji, hji, hfree]
      simp only [Option.some.injEq, true_and, reduceCtorEq, or_false]
      exact eq_comm
    · rw [if_neg hji]
      simp only [hji, false_and, false_or]
  refine ⟨⟨hl.child h hc, fun p a ha => ?_, fun a ha => ?_, fun a => ?_⟩, ?_, ?_, fun a ha => ?_, fun j j' a hj hj' h1 h2 => ?_,
    fun p => ?_, fun p hp => ?_⟩
  · rw [hl.children] at ha
    rw [hl.ppid, hl.pid]
    by_cases hpk : p = k
    · subst hpk
      rw [if_pos rfl] at ha
      rw [if_neg hkc]
      rcases List.mem_append.1 ha with ha | ha
      · rw [if_neg (hdead a (h.child_alive ha).1)]
        exact h.ppid p a ha
      · rw [if_pos (List.mem_singleton.1 ha)]
    · rw [if_neg hpk] at ha
      have hpc : p ≠ c := by
        rintro rfl
        rw [childrenOf_of_none hc] at ha
        cases ha
      rw [if_neg (hdead a (h.child_alive ha).1), if_neg hpc]
      exact h.ppid p a ha
  · rw [horph] at ha
    rw [hl.children]
    have hm := h.orphans a ha
    split
    · exact List.mem_append_left _ hm
    · exact hm
  · rw [hl.alive, ← h.table a]
    constructor
    · rintro ⟨j, hj, hja⟩
      rcases (hmem j a).1 hja with ⟨-, hac⟩ | hja
      · exact .inl hac
      · exact .inr ⟨j, hj, hja⟩
    · rintro (rfl | ⟨j, hj, hja⟩)
      · exact ⟨i, hi, (hmem i a).2 (.inl ⟨rfl, rfl⟩)⟩
      · exact ⟨j, hj, (hmem j a).2 (.inr hja)⟩
  · have hidle := hdead _ h.idle_alive
    rw [hl.pid, hl.parent, if_neg hidle, if_neg hidle]
    exact ⟨(hmem 0 idleTask).2 (.inr h.idle.1), h.idle.2⟩
  · exact ⟨(hmem 1 initTask).2 (.inr h.init.1), by rw [hl.pid, if_neg hic]; exact h.init.2⟩
  · rw [hl.pid] at ha
    split at ha
    · have := Option.some.inj ha
      omega
    · exact h.pids a ha
  · rcases (hmem j a).1 h1 with ⟨rfl, rfl⟩ | h1 <;> rcases (hmem j' _).1 h2 with ⟨rfl, h2⟩ | h2
    · rfl
    · exact absurd rfl (hdead _ ((h.table _).1 ⟨j', hj', h2⟩))
    · exact absurd h2 (hdead _ ((h.table _).1 ⟨j, hj, h1⟩))
    · exact h.one j j' a hj hj' h1 h2
  · rw [hl.children]
    split
    · refine List.nodup_append.2 ⟨h.nodup p, List.pairwise_singleton _ c, fun a ha b hb hab => ?_⟩
      rw [List.mem_singleton.1 hb] at hab
      exact hdead a (h.child_alive ha).1 hab
    · exact h.nodup p
  · rw [hl.zombie] at hp
    rw [hl.children]
    by_cases hpc : p = c
    · rw [if_pos hpc, hk.2] at hp
      cases hp
    · rw [if_neg hpc] at hp
      have hpk : p ≠ k := by
        rintro rfl
        rw [hk.2] at hp
        cases hp
      rw [if_neg hpk]
      exact h.quiet p hp

theorem Inv.taskFork (h : Inv s) (hk : s.Live k) {new pid : Option Nat} {mm : Bool} (hf : s.Fresh new pid) :
    (ForkOk s new pid mm → Inv (taskFork s k new pid mm)) ∧ (TreeOk (taskFork s k new pid mm) → ForkOk s new pid mm) := by
  obtain ⟨t, ht⟩ := Option.isSome_iff_exists.1 hk.1
  cases new with
  | none =>
    refine ⟨fun _ => ?_, fun _ => .inl rfl⟩
    unfold ProcTree.taskFork
    rwa [ht]
  | some c =>
  cases pid with
  | none =>
    refine ⟨fun _ => ?_, fun _ => .inr (.inl rfl)⟩
    unfold ProcTree.taskFork
    rwa [ht]
  | some pid =>
  have hc := hf.1 c rfl
  have hl := linkChild_linked ht hc pid
  have hcm : c ∈ (linkChild s k c pid t).childrenOf k := by
    rw [hl.children, if_pos rfl]
    exact List.mem_append_right _ (List.mem_singleton.2 rfl)
  rw [taskFork_eq ht]
  cases mm with
  | false =>
    simp only [Bool.not_false, if_true]
    refine ⟨fun hok => ?_, fun htr => ?_⟩
    · rcases hok with hok | hok | ⟨hok, -⟩ <;> cases hok
    · -- the child that was freed is still in the list
      have hne : k ≠ c := by
        rintro rfl
        rw [ht] at hc
        cases hc
      have hm : c ∈ ((linkChild s k c pid t).kfree c).childrenOf k := by
        unfold State.childrenOf State.kfree
        dsimp only
        rw [Function.update_of_ne hne]
        exact hcm
      have hp := ((htr.child k c).1 hm).2
      rw [parentOf_of_none (show ((linkChild s k c pid t).kfree c).mem c = none from Function.update_self _ _ _)] at hp
      cases hp
  | true =>
    simp only [Bool.not_true, Bool.false_eq_true, if_false]
    cases hs : firstSlot s.table none maxThreads 0 with
    | none =>
      refine ⟨fun hok => ?_, fun htr => ?_⟩
      · rcases hok with hok | hok | ⟨-, hok⟩
        · cases hok
        · cases hok
        · rw [hs] at hok
          cases hok
      · -- the child is in no slot
        have hsl := (htr.table c).2 ((hl.alive c).2 (.inl rfl))
        have hal := (h.table c).1 hsl
        rw [hc] at hal
        cases hal
    | some i =>
      obtain ⟨-, hi, hfree⟩ := firstSlot_spec hs
      have hlt : Linked s { linkChild s k c pid t with table := Function.update s.table i (some c) } k c pid :=
        ⟨hl.children, hl.parent, hl.pid, hl.ppid, hl.zombie, hl.alive⟩
      exact ⟨fun _ => h.linked hlt hk hc (hf.2 pid rfl) (by omega) hfree rfl rfl,
        fun _ => .inr (.inr ⟨rfl, by rw [hs]; rfl⟩)⟩

/-! ## Exit -/

/-- The same tree and table, whoever has died. -/
structure SameTree (s s' : State) : Prop where
  children : ∀ p, s'.childrenOf p = s.childrenOf p
  parent : ∀ c, s'.parentOf c = s.parentOf c
  pid : ∀ a, s'.pidOf a = s.pidOf a
  ppid : ∀ a, s'.ppidOf a = s.ppidOf a
  alive : ∀ a, (s'.mem a).isSome = (s.mem a).isSome
  table : s'.table = s.table

theorem SameTree.trans {s₁ s₂ s₃ : State} (h : SameTree s₁ s₂) (h' : SameTree s₂ s₃) : SameTree s₁ s₃ :=
  ⟨fun p => (h'.children p).trans (h.children p), fun c => (h'.parent c).trans (h.parent c),
    fun a => (h'.pid a).trans (h.pid a), fun a => (h'.ppid a).trans (h.ppid a),
    fun a => (h'.alive a).trans (h.alive a), h'.table.trans h.table⟩

theorem sameTree_bury (s : State) (k : Nat) : SameTree s (s.bury k) :=
  ⟨fun _ => childrenOf_modify fun _ => rfl, fun _ => parentOf_modify fun _ => rfl, fun _ => pidOf_modify fun _ => rfl,
    fun _ => ppidOf_modify fun _ => rfl, fun _ => isSome_modify, rfl⟩

theorem isZombie_bury (hp : (s.bury k).isZombie p = true) : p = k ∨ s.isZombie p = true := by
  unfold State.isZombie State.bury at hp
  rw [mem_modify] at hp
  by_cases hpk : p = k
  · exact .inl hpk
  · rw [if_neg hpk] at hp
    exact .inr hp

/-- **A task that dies alone**, or `init`, leaves everything right. -/
theorem Inv.died (h : Inv s) (hs : SameTree s s') (hz : ∀ p, s'.isZombie p = true → p = k ∨ s.isZombie p = true)
    (hk : k = initTask ∨ s.childrenOf k = []) (ho : ∀ c ∈ s'.orphans, c ∈ s.childrenOf initTask) : Inv s' := by
  refine ⟨⟨fun p c => ?_, fun p c hc => ?_, fun c hc => ?_, fun a => ?_⟩, ?_, ?_, fun a ha => ?_, ?_, fun p => ?_,
    fun p hp => ?_⟩
  · rw [hs.children, hs.parent]
    exact h.child p c
  · rw [hs.children] at hc
    rw [hs.ppid, hs.pid]
    exact h.ppid p c hc
  · rw [hs.children]
    exact ho c hc
  · rw [hs.table, hs.alive]
    exact h.table a
  · rw [hs.table, hs.pid, hs.parent]
    exact h.idle
  · rw [hs.table, hs.pid]
    exact h.init
  · rw [hs.pid] at ha
    exact h.pids a ha
  · rw [hs.table]
    exact h.one
  · rw [hs.children]
    exact h.nodup p
  · rw [hs.children]
    rcases hz p hp with rfl | hp
    · exact hk
    · exact h.quiet p hp

/-- The loop of `do_exit` over `ppid` changes nothing else, and nothing at all where `ppid` is 1. -/
theorem setPpids_parentOf : ∀ (l : List Nat) (s : State) (b : Nat),
    (l.foldl (fun s c => s.modify c fun u => { u with ppid := 1 }) s).parentOf b = s.parentOf b
  | [], _, _ => rfl
  | c :: l, s, b => by
    rw [List.foldl_cons, setPpids_parentOf l]
    exact parentOf_modify fun _ => rfl

theorem sameTree_setPpid (hc : s.ppidOf c = some 1) : SameTree s (s.modify c fun u => { u with ppid := 1 }) := by
  refine ⟨fun _ => childrenOf_modify fun _ => rfl, fun _ => parentOf_modify fun _ => rfl, fun _ => pidOf_modify fun _ => rfl,
    fun b => ?_, fun _ => isSome_modify, rfl⟩
  unfold State.ppidOf at hc ⊢
  rw [mem_modify]
  by_cases hb : b = c
  · subst hb
    rw [if_pos rfl, hc]
    cases hm : s.mem b with
    | none =>
      rw [hm] at hc
      cases hc
    | some u => rfl
  · rw [if_neg hb]

theorem sameTree_setPpids : ∀ (l : List Nat) (s : State), (∀ c ∈ l, s.ppidOf c = some 1) →
    SameTree s (l.foldl (fun s c => s.modify c fun u => { u with ppid := 1 }) s) ∧
      ∀ p, (l.foldl (fun s c => s.modify c fun u => { u with ppid := 1 }) s).isZombie p = s.isZombie p
  | [], s, _ => ⟨⟨fun _ => rfl, fun _ => rfl, fun _ => rfl, fun _ => rfl, fun _ => rfl, rfl⟩, fun _ => rfl⟩
  | c :: l, s, h => by
    have h1 := sameTree_setPpid (h c List.mem_cons_self)
    obtain ⟨h2, h3⟩ := sameTree_setPpids l (s.modify c fun u => { u with ppid := 1 }) fun b hb => by
      rw [h1.ppid]
      exact h b (List.mem_cons_of_mem c hb)
    exact ⟨h1.trans h2, fun p => (h3 p).trans (isZombie_modify fun _ => rfl)⟩

/-- The task that exits is `init`, or has no children. -/
def ExitOk (s : State) (k : Nat) : Prop := k = initTask ∨ s.childrenOf k = []

instance (s : State) (k : Nat) : Decidable (ExitOk s k) := inferInstanceAs (Decidable (_ ∨ _))

theorem Inv.orphans_of_ok (h : Inv s) (hok : ExitOk s k) : ∀ c ∈ s.childrenOf k ++ s.orphans, c ∈ s.childrenOf initTask := by
  intro c hc
  rcases List.mem_append.1 hc with hc | hc
  · rcases hok with rfl | hnil
    · exact hc
    · rw [hnil] at hc
      cases hc
  · exact h.orphans c hc

theorem Inv.doExit (h : Inv s) (k : Nat) : (ExitOk s k → Inv (doExit s k)) ∧ (TreeOk (doExit s k) → ExitOk s k) := by
  unfold ProcTree.doExit
  refine ⟨fun hok => ?_, fun htr => ?_⟩
  · have hone : ∀ c ∈ s.childrenOf k, (s.bury k).ppidOf c = some 1 := by
      intro c hc
      rw [(sameTree_bury s k).ppid, h.ppid k c hc]
      rcases hok with rfl | hnil
      · exact h.init.2
      · rw [hnil] at hc
        cases hc
    obtain ⟨h2, h3⟩ := sameTree_setPpids (s.childrenOf k) (s.bury k) hone
    have h4 := (sameTree_bury s k).trans h2
    refine h.died (k := k) ⟨h4.children, h4.parent, h4.pid, h4.ppid, h4.alive, h4.table⟩ (fun p hp => ?_) hok
      (h.orphans_of_ok hok)
    exact isZombie_bury ((h3 p).symm.trans hp)
  · -- a child that stays in `k`'s list is not in `init`'s
    by_contra hno
    obtain ⟨hk, hne⟩ := not_or.1 hno
    obtain ⟨c, hc⟩ := List.exists_mem_of_ne_nil _ hne
    have hm := htr.orphans c (List.mem_append_left _ hc)
    have hp := ((htr.child initTask c).1 hm).2
    have hp' : ((s.childrenOf k).foldl (fun s c => s.modify c fun u => { u with ppid := 1 }) (s.bury k)).parentOf c =
        some initTask := hp
    rw [setPpids_parentOf, (sameTree_bury s k).parent, (h.child_alive hc).2.1] at hp'
    exact hk (Option.some.inj hp')

/-- The loop of `task_exit` leaves PIDs and parents' PIDs alone. -/
theorem moveChildren_ids : ∀ (l : List Nat) (s : State) (b : Nat),
    (l.foldl (fun s c => moveChild s k i c) s).ppidOf b = s.ppidOf b ∧
      (l.foldl (fun s c => moveChild s k i c) s).pidOf b = s.pidOf b
  | [], _, _ => ⟨rfl, rfl⟩
  | c :: l, s, b => by
    obtain ⟨h1, h2⟩ := moveChildren_ids l (moveChild s k i c) b
    refine ⟨h1.trans ?_, h2.trans ?_⟩
    · unfold moveChild
      rw [ppidOf_modify, ppidOf_modify, ppidOf_modify] <;> exact fun _ => rfl
    · unfold moveChild
      rw [pidOf_modify, pidOf_modify, pidOf_modify] <;> exact fun _ => rfl

/-- `init` moves its one child round to where it was. -/
theorem sameTree_moveChild (ha : (s.mem k).isSome) (hl : s.childrenOf k = [c]) (hp : s.parentOf c = some k) :
    SameTree s (moveChild s k k c) ∧ ∀ p, (moveChild s k k c).isZombie p = s.isZombie p := by
  unfold moveChild
  have ha1 : ((s.modify c fun u => { u with parent := some k }).mem k).isSome := by rwa [isSome_modify]
  have ha2 : (((s.modify c fun u => { u with parent := some k }).modify k fun t =>
      { t with children := t.children.erase c }).mem k).isSome := by rwa [isSome_modify]
  refine ⟨⟨fun p => ?_, fun b => ?_, fun b => ?_, fun b => ?_, fun b => ?_, rfl⟩, fun p => ?_⟩
  · have h0 : (s.modify c fun u => { u with parent := some k }).childrenOf p = s.childrenOf p :=
      childrenOf_modify fun _ => rfl
    rw [childrenOf_relink (fun l => l ++ [c]) ha2, childrenOf_relink (fun l => l.erase c) ha1, h0]
    by_cases hpk : p = k
    · subst hpk
      rw [if_pos rfl, if_pos rfl, hl]
      simp only [List.erase_cons_head, List.nil_append]
    · rw [if_neg hpk, if_neg hpk]
  · rw [parentOf_modify, parentOf_modify]
    · by_cases hb : b = c
      · subst hb
        rw [hp]
        unfold State.parentOf at hp ⊢
        rw [mem_modify, if_pos rfl]
        cases hm : s.mem b with
        | none =>
          rw [hm] at hp
          cases hp
        | some u => rfl
      · unfold State.parentOf
        rw [mem_modify, if_neg hb]
    · exact fun _ => rfl
    · exact fun _ => rfl
  · rw [pidOf_modify, pidOf_modify, pidOf_modify] <;> exact fun _ => rfl
  · rw [ppidOf_modify, ppidOf_modify, ppidOf_modify] <;> exact fun _ => rfl
  · rw [isSome_modify, isSome_modify, isSome_modify]
  · rw [isZombie_modify, isZombie_modify, isZombie_modify] <;> exact fun _ => rfl

theorem Inv.taskExit (h : Inv s) (ht : taskExit s k = some s') : (ExitOk s k → Inv s') ∧ (TreeOk s' → ExitOk s k) := by
  unfold ProcTree.taskExit at ht
  rw [findTaskByPid_init h] at ht
  dsimp only at ht
  by_cases hloop : initTask = k ∧ 2 ≤ (s.childrenOf k).length
  · rw [if_pos hloop] at ht
    cases ht
  rw [if_neg hloop] at ht
  have hs' := Option.some.inj ht
  subst hs'
  have hbury := sameTree_bury s k
  refine ⟨fun hok => ?_, fun htr => ?_⟩
  · have hmoved : SameTree s ((s.childrenOf k).foldl (fun s c => moveChild s k initTask c) (s.bury k)) ∧
        ∀ p, ((s.childrenOf k).foldl (fun s c => moveChild s k initTask c) (s.bury k)).isZombie p =
          (s.bury k).isZombie p := by
      match hc : s.childrenOf k with
      | [] => exact ⟨hbury, fun _ => rfl⟩
      | [c] =>
        have hk : k = initTask := hok.resolve_right fun hnil => by
          rw [hc] at hnil
          cases hnil
        subst hk
        have hp : s.parentOf c = some initTask := (h.child_alive (p := initTask) (by rw [hc]; exact List.mem_cons_self)).2.1
        obtain ⟨h1, h2⟩ := sameTree_moveChild (s := s.bury initTask) (k := initTask) (c := c)
          (by rw [hbury.alive]; exact h.init_alive) (by rw [hbury.children]; exact hc) (by rw [hbury.parent]; exact hp)
        exact ⟨hbury.trans h1, h2⟩
      | c :: d :: l =>
        rw [hc] at hloop
        have hk : k ≠ initTask := fun hk => hloop ⟨hk.symm, Nat.le_add_left 2 l.length⟩
        have hnil := hok.resolve_left hk
        rw [hc] at hnil
        cases hnil
    obtain ⟨h1, h2⟩ := hmoved
    refine h.died (k := k) ⟨h1.children, h1.parent, h1.pid, h1.ppid, h1.alive, h1.table⟩ (fun p hp => ?_) hok
      (h.orphans_of_ok hok)
    exact isZombie_bury ((h2 p).symm.trans hp)
  · -- a child that was moved has its old parent's PID for `ppid`
    by_contra hno
    obtain ⟨hk, hne⟩ := not_or.1 hno
    obtain ⟨c, hc⟩ := List.exists_mem_of_ne_nil _ hne
    have hm := htr.orphans c (List.mem_append_left _ hc)
    have hpp : ((s.childrenOf k).foldl (fun s c => moveChild s k initTask c) (s.bury k)).ppidOf c =
        ((s.childrenOf k).foldl (fun s c => moveChild s k initTask c) (s.bury k)).pidOf initTask := htr.ppid initTask c hm
    rw [(moveChildren_ids _ _ c).1, (moveChildren_ids _ _ initTask).2, hbury.ppid, hbury.pid, h.ppid k c hc, h.init.2] at hpp
    exact hk (h.pids k hpp)

/-! ## Reaping -/

theorem waitChild_spec (h : waitChild s k filter = some c) : c ∈ s.childrenOf k ∧ s.isZombie c = true := by
  unfold waitChild at h
  have hz := List.find?_some h
  rw [Bool.and_eq_true] at hz
  exact ⟨List.mem_of_find?_eq_some h, hz.2⟩

/-- What is reaped is found in the table. -/
def WaitOk (s : State) (k : Nat) (filter : Nat → Bool) : Prop :=
  ∀ c ∈ waitChild s k filter, (firstSlot s.table (some c) reapSlots 0).isSome

instance (s : State) (k : Nat) (filter : Nat → Bool) : Decidable (WaitOk s k filter) :=
  inferInstanceAs (Decidable (∀ _ ∈ _, _))

/-- **The memory after a reaping**: the child is gone from it and from its parent's list. -/
theorem reapZombie_mem (s : State) (k c b : Nat) : (reapZombie s k c).mem b =
    if b = c then none else (s.modify k fun t => { t with children := t.children.erase c }).mem b := by
  unfold reapZombie
  exact Function.update_apply _ _ _ _

theorem reapZombie_view {β : Type} (g : Option Task → β) (k : Nat) (hb : b ≠ c)
    (hg : ∀ o : Option Task, g (o.map fun t => { t with children := t.children.erase c }) = g o) :
    g ((reapZombie s k c).mem b) = g (s.mem b) := by
  rw [reapZombie_mem, if_neg hb, mem_modify]
  split
  · exact hg _
  · rfl

theorem reapZombie_childrenOf (ha : (s.mem k).isSome) (p : Nat) : (reapZombie s k c).childrenOf p =
    if p = c then [] else if p = k then (s.childrenOf p).erase c else s.childrenOf p := by
  unfold State.childrenOf
  rw [reapZombie_mem]
  by_cases hpc : p = c
  · rw [if_pos hpc, if_pos hpc]
    rfl
  · rw [if_neg hpc, if_neg hpc]
    exact childrenOf_relink (fun l => l.erase c) ha

theorem Inv.reapZombie (h : Inv s) (hk : s.Live k) (hc : c ∈ s.childrenOf k) (hz : s.isZombie c = true) :
    ((firstSlot s.table (some c) reapSlots 0).isSome → Inv (reapZombie s k c)) ∧
      (TreeOk (reapZombie s k c) → (firstSlot s.table (some c) reapSlots 0).isSome) := by
  obtain ⟨hcs, hcp, hci⟩ := h.child_alive hc
  have hkc : k ≠ c := by
    rintro rfl
    rw [hk.2] at hz
    cases hz
  have hcnil := (h.quiet c hz).resolve_left hci
  have hchild := reapZombie_childrenOf (c := c) hk.1
  have hdead : (ProcTree.reapZombie s k c).mem c = none := by rw [reapZombie_mem, if_pos rfl]
  have hparent : ∀ b, b ≠ c → (ProcTree.reapZombie s k c).parentOf b = s.parentOf b := fun b hb =>
    reapZombie_view (fun o => o.bind Task.parent) k hb fun o => by cases o <;> rfl
  have hpid : ∀ b, b ≠ c → (ProcTree.reapZombie s k c).pidOf b = s.pidOf b := fun b hb =>
    reapZombie_view (fun o => o.map Task.pid) k hb fun o => by cases o <;> rfl
  have hppid : ∀ b, b ≠ c → (ProcTree.reapZombie s k c).ppidOf b = s.ppidOf b := fun b hb =>
    reapZombie_view (fun o => o.map Task.ppid) k hb fun o => by cases o <;> rfl
  have hzom : ∀ b, b ≠ c → (ProcTree.reapZombie s k c).isZombie b = s.isZombie b := fun b hb =>
    reapZombie_view (fun o => o.any Task.zombie) k hb fun o => by cases o <;> rfl
  have halive : ∀ b, b ≠ c → ((ProcTree.reapZombie s k c).mem b).isSome = (s.mem b).isSome := fun b hb =>
    reapZombie_view Option.isSome k hb fun o => by cases o <;> rfl
  -- who is in which list
  have hmem : ∀ p a, a ∈ (ProcTree.reapZombie s k c).childrenOf p ↔ a ≠ c ∧ a ∈ s.childrenOf p := by
    intro p a
    rw [hchild]
    by_cases hpc : p = c
    · subst hpc
      rw [if_pos rfl, hcnil]
      simp only [List.not_mem_nil, and_false]
    rw [if_neg hpc]
    by_cases hpk : p = k
    · subst hpk
      rw [if_pos rfl, (h.nodup p).mem_erase_iff]
    · rw [if_neg hpk]
      refine (and_iff_right_of_imp ?_).symm
      rintro ha rfl
      have := (h.child_alive ha).2.1
      rw [hcp] at this
      exact hpk (Option.some.inj this).symm
  have hslot : ∀ i, i < reapSlots → i < maxThreads := fun i hi => Nat.lt_of_lt_of_le hi (by decide)
  cases hs : firstSlot s.table (some c) reapSlots 0 with
  | none =>
    refine ⟨fun hok => (Bool.false_ne_true hok).elim, fun htr => ?_⟩
    -- the entry of the task that is freed stays
    obtain ⟨i, hi, hic⟩ := (h.table c).2 hcs
    have htab : (ProcTree.reapZombie s k c).table = s.table := by
      show (match firstSlot s.table (some c) reapSlots 0 with
        | none => s.table
        | some i => Function.update s.table i none) = s.table
      rw [hs]
    have hal := (htr.table c).1 ⟨i, hi, by rw [htab]; exact hic⟩
    rw [hdead] at hal
    cases hal
  | some i =>
    refine ⟨fun _ => ?_, fun _ => rfl⟩
    obtain ⟨-, hi, hic⟩ := firstSlot_spec hs
    rw [Nat.zero_add] at hi
    have htab : (ProcTree.reapZombie s k c).table = Function.update s.table i none := by
      show (match firstSlot s.table (some c) reapSlots 0 with
        | none => s.table
        | some i => Function.update s.table i none) = _
      rw [hs]
    have hent : ∀ j a, (ProcTree.reapZombie s k c).table j = some a ↔ j ≠ i ∧ s.table j = some a := by
      intro j a
      rw [htab, Function.update_apply]
      split <;> simp [*]
    have hfirst : ∀ j a, s.table j = some a → a ≠ c → j ≠ i := by
      rintro j a hj hac rfl
      rw [hic] at hj
      exact hac (Option.some.inj hj).symm
    have hidle : idleTask ≠ c := by
      rintro rfl
      rw [h.idle.2.2] at hcp
      cases hcp
    refine ⟨⟨fun p a => ?_, fun p a ha => ?_, fun a ha => ?_, fun a => ?_⟩, ?_, ?_, fun a ha => ?_,
      fun j j' a hj hj' h1 h2 => ?_, fun p => ?_, fun p hp => ?_⟩
    · rw [hmem, h.child]
      by_cases hac : a = c
      · subst hac
        refine iff_of_false (fun hn => hn.1 rfl) fun hn => ?_
        rw [parentOf_of_none hdead] at hn
        cases hn.2
      · rw [hparent a hac]
        exact and_iff_right hac
    · obtain ⟨hac, hap⟩ := (hmem p a).1 ha
      have hpc : p ≠ c := by
        rintro rfl
        rw [hcnil] at hap
        cases hap
      rw [hppid a hac, hpid p hpc]
      exact h.ppid p a hap
    · obtain ⟨ha, hac⟩ := List.mem_filter.1 ha
      exact (hmem _ a).2 ⟨of_decide_eq_true hac, h.orphans a ha⟩
    · by_cases hac : a = c
      · subst hac
        rw [hdead]
        refine iff_of_false ?_ Bool.false_ne_true
        rintro ⟨j, hj, hja⟩
        obtain ⟨hji, hja⟩ := (hent j a).1 hja
        exact hji (h.one j i a hj (hslot i hi) hja hic)
      · rw [halive a hac, ← h.table a]
        refine exists_congr fun j => and_congr_right fun _ => ?_
        rw [hent]
        exact and_iff_right_of_imp fun hja => hfirst j a hja hac
    · rw [hpid _ hidle, hparent _ hidle]
      exact ⟨(hent 0 _).2 ⟨hfirst 0 _ h.idle.1 hidle, h.idle.1⟩, h.idle.2⟩
    · exact ⟨(hent 1 _).2 ⟨hfirst 1 _ h.init.1 hci.symm, h.init.1⟩, by rw [hpid _ hci.symm]; exact h.init.2⟩
    · by_cases hac : a = c
      · subst hac
        unfold State.pidOf at ha
        rw [hdead] at ha
        cases ha
      · rw [hpid a hac] at ha
        exact h.pids a ha
    · exact h.one j j' a hj hj' ((hent j a).1 h1).2 ((hent j' a).1 h2).2
    · rw [hchild]
      split
      · exact List.nodup_nil
      · split
        · exact (h.nodup p).erase c
        · exact h.nodup p
    · by_cases hpc : p = c
      · subst hpc
        unfold State.isZombie at hp
        rw [hdead] at hp
        cases hp
      · rw [hzom p hpc] at hp
        refine (h.quiet p hp).imp_right fun hnil => ?_
        refine List.eq_nil_iff_forall_not_mem.2 fun a ha => ?_
        have := ((hmem p a).1 ha).2
        rw [hnil] at this
        cases this

theorem Inv.doWait (h : Inv s) (hk : s.Live k) (filter : Nat → Bool) :
    (WaitOk s k filter → Inv (doWait s k filter)) ∧ (TreeOk (doWait s k filter) → WaitOk s k filter) := by
  unfold ProcTree.doWait WaitOk
  cases hw : waitChild s k filter with
  | none => exact ⟨fun _ => h, fun _ c hc => by cases hc⟩
  | some c =>
    obtain ⟨hc, hz⟩ := waitChild_spec hw
    obtain ⟨h1, h2⟩ := h.reapZombie hk hc hz
    refine ⟨fun hok => h1 (hok c rfl), fun htr a ha => ?_⟩
    cases ha
    exact h2 htr

/-! ## Runs -/

/-- **The steps that keep tree and table right.** -/
def StepOk (s : State) : Label → Prop
  | .fork _ new pid mm => ForkOk s new pid mm
  | .exit k | .taskExit k => ExitOk s k
  | .wait k filter => WaitOk s k filter

instance (s : State) : ∀ a, Decidable (StepOk s a)
  | .fork _ new pid mm => inferInstanceAs (Decidable (ForkOk s new pid mm))
  | .exit k | .taskExit k => inferInstanceAs (Decidable (ExitOk s k))
  | .wait k filter => inferInstanceAs (Decidable (WaitOk s k filter))

/-- **What a step does**: it keeps the invariant if it is one of those, and breaks tree or table if not. -/
theorem Inv.step (h : Inv s) {a : Label} (hs : treeStep s a = some s') :
    (StepOk s a → Inv s') ∧ (TreeOk s' → StepOk s a) := by
  cases a with
  | fork k new pid mm =>
    obtain ⟨⟨hk, hf⟩, he⟩ := Option.ite_none_right_eq_some.1 hs
    cases he
    exact h.taskFork hk hf
  | exit k =>
    obtain ⟨-, he⟩ := Option.ite_none_right_eq_some.1 hs
    cases he
    exact h.doExit k
  | taskExit k =>
    obtain ⟨-, he⟩ := Option.ite_none_right_eq_some.1 hs
    exact h.taskExit he
  | wait k filter =>
    obtain ⟨hk, he⟩ := Option.ite_none_right_eq_some.1 hs
    cases he
    exact h.doWait hk filter

theorem Inv.boot : Inv boot := by
  have hmem : ∀ a, ProcTree.boot.mem a = if a = idleTask then some ⟨0, 0, none, [], false⟩
      else if a = initTask then some ⟨1, 0, some initTask, [], false⟩ else none := fun _ => rfl
  have htab : ∀ i a, ProcTree.boot.table i = some a → (i = 0 ∧ a = idleTask) ∨ (i = 1 ∧ a = initTask) := by
    intro i a hi
    have hi' : (if i = 0 then some idleTask else if i = 1 then some initTask else none) = some a := hi
    split at hi'
    · exact .inl ⟨‹_›, (Option.some.inj hi').symm⟩
    · split at hi'
      · exact .inr ⟨‹_›, (Option.some.inj hi').symm⟩
      · cases hi'
  have hchild : ∀ p, ProcTree.boot.childrenOf p = [] := by
    intro p
    unfold State.childrenOf
    rw [hmem]
    split
    · rfl
    · split <;> rfl
  refine ⟨⟨fun p c => ?_, fun p c hc => ?_, fun c hc => ?_, fun a => ?_⟩, ⟨rfl, rfl, rfl⟩, ⟨rfl, rfl⟩, fun a ha => ?_,
    fun i j a _ _ hi hj => ?_, fun p => ?_, fun p _ => .inr (hchild p)⟩
  · rw [hchild]
    refine iff_of_false List.not_mem_nil ?_
    rintro ⟨hne, hp⟩
    unfold State.parentOf at hp
    rw [hmem, if_neg hne] at hp
    split at hp <;> cases hp
  · rw [hchild] at hc
    cases hc
  · cases hc
  · rw [hmem]
    constructor
    · rintro ⟨i, -, hi⟩
      rcases htab i a hi with ⟨-, rfl⟩ | ⟨-, rfl⟩ <;> rfl
    · intro ha
      by_cases h1 : a = idleTask
      · exact ⟨0, by decide, by rw [h1]; rfl⟩
      · rw [if_neg h1] at ha
        by_cases h2 : a = initTask
        · exact ⟨1, by decide, by rw [h2]; rfl⟩
        · rw [if_neg h2] at ha
          cases ha
  · unfold State.pidOf at ha
    rw [hmem] at ha
    split at ha
    · cases ha
    · split at ha
      · assumption
      · cases ha
  · have hne : idleTask ≠ initTask := by decide
    rcases htab i a hi with ⟨rfl, rfl⟩ | ⟨rfl, rfl⟩ <;> rcases htab j _ hj with ⟨rfl, ha⟩ | ⟨rfl, ha⟩
    · rfl
    · exact absurd ha hne
    · exact absurd ha.symm hne
    · rfl
  · rw [hchild]
    exact List.nodup_nil

/-- **Tree and table are right throughout a run exactly when no fork fails after linking the child or finds the table full,
no task but `init` exits with children, and every task reaped is in one of the first 4096 slots.** -/
theorem treeOk_iff_of_run (l : List Label) (s' : State) (h : treeMachine.run boot l = some s') :
    treeMachine.Always TreeOk boot l ↔ treeMachine.RunOk StepOk boot l s' :=
  treeMachine.always_iff_runOk (fun _ hi => hi.toTreeOk) (fun _ _ _ hi hs => (hi.step hs).1)
    (fun _ _ _ hi hs => (hi.step hs).2) l boot s' Inv.boot h

/-! ## A parent that exits first -/

/-- `init` forks, its child forks, and the child exits before its own: that one stays in the dead task's list, with a
`ppid` that is not its parent's PID. -/
theorem not_treeOk_exit : ∃ s, treeMachine.run boot [.fork initTask (some 10) (some 2) true, .fork 10 (some 11) (some 3) true,
      .exit 10] = some s ∧
    s.childrenOf 10 = [11] ∧ s.parentOf 11 = some 10 ∧ s.ppidOf 11 = some 1 ∧ s.pidOf 10 = some 2 ∧
    11 ∉ s.childrenOf initTask ∧ ¬TreeOk s := by
  have hrun : (treeMachine.run boot [.fork initTask (some 10) (some 2) true, .fork 10 (some 11) (some 3) true,
      .exit 10]).map (fun s => (s.childrenOf 10, s.parentOf 11, s.ppidOf 11, s.pidOf 10, decide (11 ∈ s.childrenOf initTask))) =
      some ([11], some 10, some 1, some 2, false) := by
    decide +kernel
  obtain ⟨s, hs, hval⟩ := Option.map_eq_some_iff.1 hrun
  simp only [Prod.mk.injEq, decide_eq_false_iff_not] at hval
  obtain ⟨h1, h2, h3, h4, h5⟩ := hval
  refine ⟨s, hs, h1, h2, h3, h4, h5, fun ht => ?_⟩
  have hp := ht.ppid 10 11 (by rw [h1]; exact List.mem_cons_self)
  rw [h3, h4] at hp
  cases hp

/-- A child that exits and is reaped before its parent. -/
theorem treeOk_in_five : ∃ s, treeMachine.RunOk StepOk boot [.fork initTask (some 10) (some 2) true,
      .fork 10 (some 11) (some 3) true, .exit 11, .wait 10 fun _ => true, .taskExit 10] s ∧
    treeMachine.Always TreeOk boot [.fork initTask (some 10) (some 2) true, .fork 10 (some 11) (some 3) true, .exit 11,
      .wait 10 fun _ => true, .taskExit 10] := by
  have hrun : (treeMachine.check StepOk boot [.fork initTask (some 10) (some 2) true, .fork 10 (some 11) (some 3) true,
      .exit 11, .wait 10 fun _ => true, .taskExit 10]).isSome = true := by
    decide +kernel
  obtain ⟨s, hs⟩ := Option.isSome_iff_exists.1 hrun
  have hok := treeMachine.runOk_of_check hs
  exact ⟨s, hok, (treeOk_iff_of_run _ s (Machine.RunOk.run treeMachine hok)).2 hok⟩

end ProcTree
end Pico
