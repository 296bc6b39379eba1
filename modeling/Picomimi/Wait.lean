import Picomimi.Lib.Run
/-!
# Wait — `do_wait` and the exits it waits for

A parent in `wait4` and any number of children, each on a processor of its own.  The parent scans its children one by one,
tests for a signal, stores `TASK_INTERRUPTIBLE` and calls `schedule`; a child marks itself a zombie, sets `SIGCHLD` pending
and wakes the parent if it finds it in `TASK_INTERRUPTIBLE`.  Each of these is a step.  A wakeup that falls between the
parent's test and its store is lost (`not_noLostExit`); without one no exit is slept over (`noLostExit_of_clear`).
-/
namespace Pico
namespace Wait

open Lib

def wnohang : Nat := 0x00000001
def wuntraced : Nat := 0x00000002
def wcontinued : Nat := 0x00000008
def wnowait : Nat := 0x01000000

def echild : Int := 10
def eintr : Int := 4

inductive ExitState where
  | running | stopped | continued | zombie | dead
deriving DecidableEq

/-- Where a child is in `do_exit`. -/
inductive ChildPc where
  | alive
  | marked          -- `exit_state = EXIT_ZOMBIE` is stored
  | signalled       -- `SIGCHLD` is pending, the parent's state not yet read
  | done
deriving DecidableEq

structure Child where
  pid : Int
  tgid : Int
  pgrp : Option Int          -- `signal->pgrp`, unless `signal` is NULL
  exitState : ExitState
  waitReported : Bool
  pc : ChildPc

structure Wait4 where
  pid : Int
  options : Nat

def Wait4.has (w : Wait4) (flag : Nat) : Bool := w.options &&& flag ≠ 0

/-- Where the parent is in `do_wait`; `user` is outside, with the last call's result. -/
inductive Pc where
  | user (ret : Int)
  | scan (w : Wait4) (rest : List Nat) (found : Bool)      -- `rest` is still to be looked at
  | store (w : Wait4)                                      -- no signal was pending
  | sched (w : Wait4)
  | asleep (w : Wait4)                                     -- inside `schedule`

/-- The parent's `state` is `TASK_INTERRUPTIBLE` or `TASK_RUNNING`. -/
structure System where
  pgrp : Option Int
  pc : Pc
  interruptible : Bool
  pending : Bool
  kids : List Child
  children : List Nat        -- `parent->children`, of places in `kids`

def taskMatchesPid (child : Child) (parentPgrp : Option Int) (waitPid : Int) : Bool :=
  if waitPid = -1 then true
  else if waitPid = 0 then
    match child.pgrp, parentPgrp with
    | some a, some b => a == b
    | _, _ => false
  else if waitPid < -1 then child.pgrp == some (-waitPid)
  else child.pid == waitPid || child.tgid == waitPid

def System.setKid (s : System) (i : Nat) (k : Child) : System := { s with kids := s.kids.set i k }

/-- `reap_zombie`: the child leaves the list. -/
def reapZombie (s : System) (i : Nat) (k : Child) : System :=
  { s.setKid i { k with exitState := .dead } with children := s.children.erase i }

/-- One turn of the scan. -/
def scanTurn (s : System) (w : Wait4) (i : Nat) (rest : List Nat) (found : Bool) (k : Child) : System :=
  if !taskMatchesPid k s.pgrp w.pid then { s with pc := .scan w rest found }
  else if k.exitState = .zombie then
    { (if w.has wnowait then s else reapZombie s i k) with pc := .user k.pid }
  else if w.has wuntraced ∧ k.exitState = .stopped ∧ k.waitReported = false then
    { s.setKid i { k with waitReported := true } with pc := .user k.pid }
  else if w.has wcontinued ∧ k.exitState = .continued ∧ k.waitReported = false then
    { s.setKid i { k with waitReported := true } with pc := .user k.pid }
  else { s with pc := .scan w rest true }

/-- The end of the scan, and the test for a signal. -/
def scanEnd (s : System) (w : Wait4) (found : Bool) : System :=
  if !found then { s with pc := .user (-echild) }
  else if w.has wnohang then { s with pc := .user 0 }
  else if s.pending then { s with pc := .user (-eintr) }
  else { s with pc := .store w }

/-- The parent's next step. -/
def parentTurn (s : System) : Option System :=
  match s.pc with
  | .user _ => none
  | .scan w [] found => some (scanEnd s w found)
  | .scan w (i :: rest) found =>
    match s.kids[i]? with
    | some k => some (scanTurn s w i rest found k)
    | none => none
  | .store w => some { s with interruptible := true, pc := .sched w }
  | .sched w => some { s with pc := .asleep w }
  | .asleep w => if s.interruptible then none else some { s with pc := .scan w s.children false }

inductive Label where
  | call (w : Wait4)
  | parent
  | idle                     -- `schedule` finds nothing else to run, and returns
  | fork (pid tgid : Int) (pgrp : Option Int)
  | deliver                  -- the parent handles its signals on the way to user mode
  | exit (i : Nat)
  | signal (i : Nat)
  | wake (i : Nat)
  | post                     -- somebody else sets a signal of the parent pending
  | poke                     -- somebody else finds the parent in `TASK_INTERRUPTIBLE` and wakes it

/-- `if (task->state == TASK_INTERRUPTIBLE) wake_up_process(task)`. -/
def System.wakeUp (s : System) : System := { s with interruptible := false }

def step (s : System) : Label → Option System
  | .call w =>
    match s.pc with
    | .user _ => some { s with pc := .scan w s.children false }
    | _ => none
  | .parent => parentTurn s
  | .idle =>
    match s.pc with
    | .asleep w => some { s with pc := .scan w s.children false }
    | _ => none
  | .fork pid tgid pgrp =>
    match s.pc with
    | .user _ => some { s with
        kids := s.kids ++ [⟨pid, tgid, pgrp, .running, false, .alive⟩]
        children := s.children ++ [s.kids.length] }
    | _ => none
  | .deliver =>
    match s.pc with
    | .user _ => some { s with pending := false }
    | _ => none
  | .exit i =>
    match s.kids[i]? with
    | some k => if k.pc = .alive then some (s.setKid i { k with exitState := .zombie, pc := .marked }) else none
    | none => none
  | .signal i =>
    match s.kids[i]? with
    | some k => if k.pc = .marked then some { s.setKid i { k with pc := .signalled } with pending := true } else none
    | none => none
  | .wake i =>
    match s.kids[i]? with
    | some k => if k.pc = .signalled then some (s.setKid i { k with pc := .done }).wakeUp else none
    | none => none
  | .post => some { s with pending := true }
  | .poke => some s.wakeUp

/-- A parent outside `do_wait`, with any children. -/
def machine : Machine System Label where
  init s := ∃ ret, s.pc = .user ret
  step := step

/-- A child that `do_wait` would reap. -/
def Reapable (s : System) (w : Wait4) (k : Child) : Prop :=
  taskMatchesPid k s.pgrp w.pid = true ∧ k.exitState = .zombie

/-- The child's `send_signal` has yet to read the parent's state. -/
def Child.Owes (k : Child) : Prop := k.pc = .marked ∨ k.pc = .signalled

/-- **The parent does not sleep past an exit**: in `TASK_INTERRUPTIBLE` inside `do_wait`, with a zombie among its children
that it waits for and no child about to wake it. -/
def NoLostExit (s : System) : Prop :=
  ∀ w, s.pc = .asleep w → s.interruptible = true → ∀ i ∈ s.children, ∀ k, s.kids[i]? = some k → Reapable s w k →
    ∃ k' ∈ s.kids, k'.Owes

/-- **No child that is waited for reads the parent's state between the parent's test for a signal and its store.** -/
def Clear (s : System) : Label → Prop
  | .wake i =>
    match s.pc with
    | .store w => ∀ k ∈ s.kids[i]?, taskMatchesPid k s.pgrp w.pid = false
    | _ => True
  | _ => True

/-! ## Runs -/

/-- **What the parent knows of its children**: those it has scanned and finds no signal of are only marked; those it sleeps
over still owe it a wakeup. -/
def Inv (s : System) : Prop :=
  match s.pc with
  | .user _ => True
  | .scan w rest _ => ∀ i ∈ s.children, i ∉ rest → ∀ k, s.kids[i]? = some k → Reapable s w k →
      k.pc = .marked ∨ s.pending = true
  | .store w => ∀ i ∈ s.children, ∀ k, s.kids[i]? = some k → Reapable s w k → k.Owes
  | .sched w | .asleep w => s.interruptible = true → ∀ i ∈ s.children, ∀ k, s.kids[i]? = some k → Reapable s w k → k.Owes

variable {s s' : System}

theorem Inv.noLost (hi : Inv s) : NoLostExit s := by
  intro w hpc hint i hmem k hk hr
  unfold Inv at hi
  rw [hpc] at hi
  exact ⟨k, List.mem_of_getElem? hk, hi hint i hmem k hk hr⟩

/-- A fresh scan has looked at nothing. -/
theorem Inv.scan (s : System) (w : Wait4) : Inv { s with pc := .scan w s.children false } :=
  fun _ hmem hn => absurd hmem hn

theorem Inv.user (s : System) (ret : Int) : Inv { s with pc := .user ret } := trivial

theorem Inv.scanTurn {w : Wait4} {i : Nat} {rest : List Nat} {found : Bool} {k : Child} (hi : Inv s)
    (hpc : s.pc = .scan w (i :: rest) found) (hk : s.kids[i]? = some k) : Inv (scanTurn s w i rest found k) := by
  unfold Inv at hi
  rw [hpc] at hi
  -- the child looked at is no zombie that is waited for
  have hon : ∀ found, ¬Reapable s w k → Inv { s with pc := .scan w rest found } := by
    intro found hno j hmem hj k' hk' hr
    by_cases hji : j = i
    · subst hji
      rw [hk] at hk'
      cases hk'
      exact absurd hr hno
    · exact hi j hmem (fun h => (List.mem_cons.1 h).elim hji hj) k' hk' hr
  unfold Wait.scanTurn
  split
  · rename_i hm
    exact hon _ (fun hr => by simp [hr.1] at hm)
  · split
    · exact .user _ _
    · rename_i hz
      split
      · exact .user _ _
      · split
        · exact .user _ _
        · exact hon _ (fun hr => hz hr.2)

theorem Inv.scanEnd {w : Wait4} {found : Bool} (hi : Inv s) (hpc : s.pc = .scan w [] found) :
    Inv (scanEnd s w found) := by
  unfold Inv at hi
  rw [hpc] at hi
  unfold Wait.scanEnd
  split
  · exact .user _ _
  · split
    · exact .user _ _
    · split
      · exact .user _ _
      · rename_i hp
        exact fun i hmem k hk hr => .inl ((hi i hmem List.not_mem_nil k hk hr).resolve_right hp)

theorem Inv.parent (hi : Inv s) (h : parentTurn s = some s') : Inv s' := by
  unfold parentTurn at h
  split at h
  · cases h
  · rename_i w found hpc
    cases h
    exact hi.scanEnd hpc
  · rename_i w i rest found hpc
    split at h
    · rename_i k hk
      cases h
      exact hi.scanTurn hpc hk
    · cases h
  · rename_i w hpc
    cases h
    unfold Inv at hi
    rw [hpc] at hi
    exact fun _ => hi
  · rename_i w hpc
    cases h
    unfold Inv at hi
    rw [hpc] at hi
    exact hi
  · rename_i w hpc
    split at h
    · cases h
    · cases h
      exact .scan s w

theorem Inv.wakeUp (hi : Inv s) : Inv s.wakeUp := by
  unfold Inv at hi ⊢
  unfold System.wakeUp
  cases hpc : s.pc with
  | user ret => trivial
  | scan w rest found =>
    rw [hpc] at hi
    exact hi
  | store w =>
    rw [hpc] at hi
    exact hi
  | sched w => exact fun hn => absurd hn Bool.false_ne_true
  | asleep w => exact fun hn => absurd hn Bool.false_ne_true

theorem Inv.post (hi : Inv s) : Inv { s with pending := true } := by
  unfold Inv at hi ⊢
  cases hpc : s.pc with
  | user ret => trivial
  | scan w rest found => exact fun _ _ _ _ _ _ => .inr rfl
  | store w =>
    rw [hpc] at hi
    exact hi
  | sched w =>
    rw [hpc] at hi
    exact hi
  | asleep w =>
    rw [hpc] at hi
    exact hi

/-- **A step of a child in `do_exit`**, when the parent's place allows the child's new one. -/
theorem Inv.setKid (hi : Inv s) {i : Nat} {k k' : Child} (hk : s.kids[i]? = some k)
    (hscan : ∀ w rest found, s.pc = .scan w rest found → Reapable s w k' →
      k'.pc = .marked ∨ s.pending = true ∨ (Reapable s w k ∧ k.pc ≠ .marked))
    (howes : ∀ w, s.pc = .store w ∨ (s.interruptible = true ∧ (s.pc = .sched w ∨ s.pc = .asleep w)) →
      Reapable s w k' → k'.Owes) : Inv (s.setKid i k') := by
  have hget : ∀ j l, (s.kids.set i k')[j]? = some l → (j = i ∧ l = k') ∨ s.kids[j]? = some l := by
    intro j l hl
    by_cases hj : j = i
    · subst hj
      rw [List.getElem?_set_self (List.getElem?_eq_some_iff.1 hk).1] at hl
      exact .inl ⟨rfl, (Option.some.inj hl).symm⟩
    · exact .inr ((List.getElem?_set_ne (Ne.symm hj)).symm.trans hl)
  unfold Inv at hi ⊢
  unfold System.setKid
  cases hpc : s.pc with
  | user ret => trivial
  | scan w rest found =>
    rw [hpc] at hi
    intro j hmem hj l hl hr
    rcases hget j l hl with ⟨rfl, rfl⟩ | hl
    · rcases hscan w rest found hpc hr with h | h | ⟨hr', h⟩
      · exact .inl h
      · exact .inr h
      · exact .inr ((hi j hmem hj k hk hr').resolve_left h)
    · exact hi j hmem hj l hl hr
  | store w =>
    rw [hpc] at hi
    intro j hmem l hl hr
    rcases hget j l hl with ⟨rfl, rfl⟩ | hl
    · exact howes w (.inl hpc) hr
    · exact hi j hmem l hl hr
  | sched w =>
    rw [hpc] at hi
    intro hint j hmem l hl hr
    rcases hget j l hl with ⟨rfl, rfl⟩ | hl
    · exact howes w (.inr ⟨hint, .inl hpc⟩) hr
    · exact hi hint j hmem l hl hr
  | asleep w =>
    rw [hpc] at hi
    intro hint j hmem l hl hr
    rcases hget j l hl with ⟨rfl, rfl⟩ | hl
    · exact howes w (.inr ⟨hint, .inr hpc⟩) hr
    · exact hi hint j hmem l hl hr

theorem Inv.step {a : Label} (hi : Inv s) (hok : Clear s a) (h : machine.step s a = some s') : Inv s' := by
  cases a with
  | call w =>
    simp only [machine, Wait.step] at h
    split at h
    · cases h
      exact .scan s w
    · cases h
  | parent => exact hi.parent h
  | idle =>
    simp only [machine, Wait.step] at h
    split at h
    · cases h
      exact .scan s _
    · cases h
  | fork pid tgid pgrp =>
    simp only [machine, Wait.step] at h
    split at h
    · rename_i ret hpc
      cases h
      unfold Inv
      rw [hpc]
      trivial
    · cases h
  | deliver =>
    simp only [machine, Wait.step] at h
    split at h
    · rename_i ret hpc
      cases h
      unfold Inv
      rw [hpc]
      trivial
    · cases h
  | exit i =>
    simp only [machine, Wait.step] at h
    split at h
    · rename_i k hk
      split at h
      · cases h
        exact hi.setKid hk (fun _ _ _ _ _ => .inl rfl) (fun _ _ _ => .inl rfl)
      · cases h
    · cases h
  | signal i =>
    simp only [machine, Wait.step] at h
    split at h
    · rename_i k hk
      split at h
      · cases h
        exact hi.post.setKid hk (fun _ _ _ _ _ => .inr (.inl rfl)) (fun _ _ _ => .inr rfl)
      · cases h
    · cases h
  | wake i =>
    simp only [machine, Wait.step] at h
    split at h
    · rename_i k hk
      split at h
      · rename_i hsig
        cases h
        refine hi.wakeUp.setKid hk (fun w rest found _ hr => .inr (.inr ⟨hr, by simp [hsig]⟩)) ?_
        -- the store has been seen, or the child is not waited for
        rintro w (hpc | ⟨hint, -⟩) hr
        · simp only [Clear, show s.pc = .store w from hpc] at hok
          exact absurd (hok k hk) (by simp [show taskMatchesPid k s.pgrp w.pid = true from hr.1])
        · cases hint
      · cases h
    · cases h
  | post =>
    cases h
    exact hi.post
  | poke =>
    cases h
    exact hi.wakeUp

theorem Inv.init (h : machine.init s) : Inv s := by
  obtain ⟨ret, hpc⟩ := h
  unfold Inv
  rw [hpc]
  trivial

/-- **In every state of a run whose wakeups stay out of the window, the parent does not sleep past an exit.** -/
theorem noLostExit_of_clear (l : List Label) (s s' : System) (h0 : machine.init s) (h : machine.RunOk Clear s l s') :
    NoLostExit s' :=
  (machine.runOk_invariant (fun _ _ _ hi hok hs => Inv.step hi hok hs) l s s' (.init h0) h).noLost

/-! ## A lost exit -/

/-- A parent with one child. -/
def oneChild : System := ⟨some 1, .user 0, false, false, [⟨2, 2, some 1, .running, false, .alive⟩], [0]⟩

/-- The child exits after the parent's test for a signal and before its store. -/
theorem not_noLostExit :
    ¬∀ (l : List Label) (s s' : System), machine.init s → machine.run s l = some s' → NoLostExit s' := by
  intro h
  have hrun : machine.run oneChild [.call ⟨-1, 0⟩, .parent, .parent, .exit 0, .signal 0, .wake 0, .parent, .parent] =
      some ⟨some 1, .asleep ⟨-1, 0⟩, true, true, [⟨2, 2, some 1, .zombie, false, .done⟩], [0]⟩ := rfl
  obtain ⟨k, hk, howes⟩ := h _ _ _ ⟨0, rfl⟩ hrun ⟨-1, 0⟩ rfl rfl 0 (List.mem_singleton.2 rfl) _ rfl ⟨rfl, rfl⟩
  rw [List.mem_singleton.1 hk] at howes
  rcases howes with h | h <;> cases h

/-- The child exits while the parent sleeps. -/
theorem noLostExit_asleep : ∃ s, machine.RunOk Clear oneChild
    [.call ⟨-1, 0⟩, .parent, .parent, .parent, .parent, .exit 0, .signal 0, .wake 0, .parent, .parent] s ∧ NoLostExit s := by
  have hok : ∃ s, machine.RunOk Clear oneChild
      [.call ⟨-1, 0⟩, .parent, .parent, .parent, .parent, .exit 0, .signal 0, .wake 0, .parent, .parent] s :=
    ⟨_, trivial, _, rfl, trivial, _, rfl, trivial, _, rfl, trivial, _, rfl, trivial, _, rfl, trivial, _, rfl, trivial, _, rfl,
      trivial, _, rfl, trivial, _, rfl, trivial, _, rfl, rfl⟩
  obtain ⟨s, hs⟩ := hok
  exact ⟨s, hs, noLostExit_of_clear _ oneChild s ⟨0, rfl⟩ hs⟩

end Wait
end Pico
