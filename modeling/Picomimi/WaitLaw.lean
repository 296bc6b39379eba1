import Picomimi.Lib.Links
import Picomimi.Lib.Word
import Picomimi.Wait
/-!
# WaitLaw — what a call of `do_wait` returns, and whom it reaps

The scan of `do_wait` over the list it takes children out of, with no other processor in its way.  `Law` says what one
call with `WNOHANG` returns, whatever the list; over a sequence of calls nobody is reaped twice (`law_of_run`).  Tasks go
by an identity of their own, which `kmalloc` does not hand out again as it does an address.
-/
namespace Pico
namespace WaitLaw

open Lib
open Wait (wnohang wuntraced wcontinued wnowait echild eintr taskMatchesPid)

def nsecPerSec : Nat := 1000000000
def nsecPerUsec : Nat := 1000

/-- A list head or a task's `sibling`, or the address 0. -/
inductive Node where
  | null
  | children (p : Nat)
  | sibling (c : Nat)
deriving DecidableEq

structure Task extends Wait.Child where
  exitCode : BitVec 32
  stopSignal : BitVec 32
  utime : Nat
  stime : Nat
  totalVm : Option Nat       -- `mm->total_vm`, unless `mm` is NULL
  pending : Bool             -- `signal_pending`

structure State where
  task : Nat → Task
  links : Links Node

/-- The arguments of `wait4`, with which of the two pointers are not NULL. -/
structure Call extends Wait.Wait4 where
  wstatus : Bool
  ru : Bool

/-- `if (wstatus) *wstatus = status`. -/
def Call.put (w : Call) (status : BitVec 32) : Option (BitVec 32) := if w.wstatus then some status else none

structure Rusage where
  utimeSec : Nat
  utimeUsec : Nat
  stimeSec : Nat
  stimeUsec : Nat
  maxrss : Nat

/-- What a pass of `do_wait` does; without a `ret` the parent goes to sleep, to scan its children again. -/
structure Outcome where
  ret : Option Int
  wstatus : Option (BitVec 32)       -- what is stored through the pointer
  ru : Option Rusage
  state : State
  reaped : Option Nat                -- the child `reap_zombie` was called for

/-- `W_EXITCODE(ret, sig)`. -/
def wExitcode (ret sig : BitVec 32) : BitVec 32 := ret <<< 8 ||| sig

def wStopcode (sig : BitVec 32) : BitVec 32 := sig <<< 8 ||| 0x7f#32

def wContinued : BitVec 32 := 0xffff#32

def State.setTask (s : State) (t : Nat) (task : Task) : State := { s with task := Function.update s.task t task }

/-- The status of a zombie: `W_EXITCODE(child->exit_code & 0xFF, 0)`. -/
def exitStatus (child : Task) : BitVec 32 := wExitcode (child.exitCode &&& 0xff#32) 0#32

def rusageOf (child : Task) : Rusage where
  utimeSec := child.utime / nsecPerSec
  utimeUsec := child.utime % nsecPerSec / nsecPerUsec
  stimeSec := child.stime / nsecPerSec
  stimeUsec := child.stime % nsecPerSec / nsecPerUsec
  maxrss := match child.totalVm with
    | some n => n * 4
    | none => 0

/-- `list_del_init`. -/
def listDelInit (L : Links Node) (entry : Node) : Links Node := Links.listDel entry L entry

/-- The detaching in `reap_zombie`. -/
def detach (L : Links Node) (c : Nat) : Links Node :=
  if L.next (.sibling c) ≠ .null ∧ L.prev (.sibling c) ≠ .null then listDelInit L (.sibling c) else L

/-- `reap_zombie`, of a child of `p`: the parent gets its times, and it leaves the list. -/
def reapZombie (s : State) (p c : Nat) : State :=
  let child := s.task c
  let parent := s.task p
  let s := s.setTask p { parent with utime := add64 parent.utime child.utime, stime := add64 parent.stime child.stime }
  { s.setTask c { s.task c with totalVm := none, exitState := .dead } with links := detach s.links c }

/-- The body of the scan, where it returns. -/
def visit (s : State) (p : Nat) (w : Call) (c : Nat) : Option Outcome :=
  let child := s.task c
  if !taskMatchesPid child.toChild (s.task p).pgrp w.pid then none
  else if child.exitState = .zombie then
    if !w.has wnowait then
      some ⟨some child.pid, w.put (exitStatus child), if w.ru then some (rusageOf child) else none, reapZombie s p c,
        some c⟩
    else some ⟨some child.pid, w.put (exitStatus child), none, s, none⟩
  else if w.has wuntraced ∧ child.exitState = .stopped ∧ child.waitReported = false then
    some ⟨some child.pid, w.put (wStopcode child.stopSignal), none, s.setTask c { child with waitReported := true }, none⟩
  else if w.has wcontinued ∧ child.exitState = .continued ∧ child.waitReported = false then
    some ⟨some child.pid, w.put wContinued, none, s.setTask c { child with waitReported := true }, none⟩
  else none

/-- After the scan. -/
def scanEnd (s : State) (p : Nat) (w : Call) (found : Bool) : Outcome :=
  if !found then ⟨some (-echild), none, none, s, none⟩
  else if w.has wnohang then ⟨some 0, none, none, s, none⟩
  else if (s.task p).pending then ⟨some (-eintr), none, none, s, none⟩
  else ⟨none, none, none, s, none⟩

/-- `list_for_each_safe` from `pos` on.  The body returns wherever it takes a child out, so that the entry behind is the
same before and after it. -/
def scan (s : State) (p : Nat) (w : Call) : Nat → Node → Bool → Option Outcome
  | 0, _, _ => none
  | fuel + 1, pos, found =>
    if pos = .children p then some (scanEnd s p w found)
    else
      match pos with
      | .sibling c =>
        match visit s p w c with
        | some o => some o
        | none => scan s p w fuel (s.links.next pos) (found || taskMatchesPid (s.task c).toChild (s.task p).pgrp w.pid)
      | _ => none

/-- One pass of `do_wait`; no result is a scan not done in `fuel` steps. -/
def doWait (s : State) (p : Nat) (w : Call) (fuel : Nat) : Option Outcome :=
  scan s p w fuel (s.links.next (.children p)) false

/-- The children of every task, in the order of the list. -/
def Lists (s : State) (q : Nat → List Nat) : Prop := s.links.Family Node.children fun p => (q p).map Node.sibling

/-- The child is one the call waits for. -/
def matched (s : State) (p : Nat) (w : Call) (c : Nat) : Bool := taskMatchesPid (s.task c).toChild (s.task p).pgrp w.pid

/-- There is something to report of the child: it is a zombie or, as far as the options ask for that, an unreported
stopped or continued task. -/
def ready (s : State) (p : Nat) (w : Call) (c : Nat) : Bool :=
  matched s p w c && ((s.task c).exitState = .zombie ||
    (!(s.task c).waitReported && (w.has wuntraced && (s.task c).exitState = .stopped ||
      w.has wcontinued && (s.task c).exitState = .continued)))

/-- **The result law of `wait4` with `WNOHANG`** for a parent `p` with the children `q p`. -/
structure Law (s : State) (q : Nat → List Nat) (p : Nat) (w : Call) (o : Outcome) : Prop where
  nobody : (∀ c ∈ q p, matched s p w c = false) → o.ret = some (-echild)
  echild : (∀ c ∈ q p, (s.task c).pid ≠ -echild) → o.ret = some (-echild) → ∀ c ∈ q p, matched s p w c = false
  first : ∀ c, (q p).find? (ready s p w) = some c → o.ret = some (s.task c).pid
  zero : (∃ c ∈ q p, matched s p w c = true) → (∀ c ∈ q p, ready s p w c = false) → o.ret = some 0
  status : ∀ c, (q p).find? (ready s p w) = some c → (s.task c).exitState = .zombie → w.wstatus = true →
    ∃ status, o.wstatus = some status ∧ (status.toNat : Int) = (s.task c).exitCode.toInt % 256 * 256
  reaped : ∀ c, o.reaped = some c ↔
    (q p).find? (ready s p w) = some c ∧ (s.task c).exitState = .zombie ∧ w.has wnowait = false
  lists : Lists o.state fun p' => (q p').filter fun c => o.reaped ≠ some c

variable {s s' : State} {q : Nat → List Nat} {p c : Nat} {w : Call}

theorem sibling_injective : Function.Injective Node.sibling := fun _ _ h => by cases h; rfl

/-- The status is the exit code's low byte, in the second byte. -/
theorem exitStatus_eq (child : Task) : ((exitStatus child).toNat : Int) = child.exitCode.toInt % 256 * 256 := by
  have hlow : child.exitCode.toInt % 256 = (child.exitCode.toNat % 256 : Nat) := by
    rw [BitVec.toInt_eq_toNat_cond]
    split <;> omega
  have hand : (child.exitCode &&& 0xff#32).toNat = child.exitCode.toNat % 256 := by
    rw [BitVec.toNat_and]
    exact Nat.and_two_pow_sub_one_eq_mod _ 8
  unfold exitStatus wExitcode
  rw [BitVec.or_zero, BitVec.toNat_shiftLeft, hand, hlow, Nat.shiftLeft_eq]
  have := Nat.mod_lt child.exitCode.toNat (by decide : 0 < 256)
  omega

/-- **A child with nothing to report is passed over.** -/
theorem visit_of_not_ready (h : ready s p w c = false) : visit s p w c = none := by
  simp only [visit]
  split
  · rfl
  · rename_i hm
    have hmatch : matched s p w c = true := by simpa only [matched, Bool.not_eq_true', Bool.not_eq_false] using hm
    rw [ready, hmatch, Bool.true_and] at h
    simp only [Bool.or_eq_false_iff, decide_eq_false_iff_not] at h
    rw [if_neg h.1, if_neg, if_neg]
    · rintro ⟨h1, h2, h3⟩
      simp [h1, h2, h3] at h
    · rintro ⟨h1, h2, h3⟩
      simp [h1, h2, h3] at h

/-- What is returned of a child that has something to report. -/
structure Visited (s : State) (w : Call) (c : Nat) (o : Outcome) : Prop where
  ret : o.ret = some (s.task c).pid
  status : (s.task c).exitState = .zombie → o.wstatus = w.put (exitStatus (s.task c))
  reaped : o.reaped = if (s.task c).exitState = .zombie ∧ w.has wnowait = false then some c else none
  links : o.state.links = if (s.task c).exitState = .zombie ∧ w.has wnowait = false then detach s.links c else s.links

theorem visit_of_ready (h : ready s p w c = true) : ∃ o, visit s p w c = some o ∧ Visited s w c o := by
  unfold ready at h
  rw [Bool.and_eq_true] at h
  obtain ⟨hmatch, hcond⟩ := h
  have hm : ¬(!taskMatchesPid (s.task c).toChild (s.task p).pgrp w.pid) = true := by
    unfold matched at hmatch
    simp [hmatch]
  simp only [visit]
  rw [if_neg hm]
  by_cases hz : (s.task c).exitState = .zombie
  · rw [if_pos hz]
    cases hw : w.has wnowait with
    | true => exact ⟨_, rfl, rfl, fun _ => rfl, by simp [hw], by simp [hw]⟩
    | false => exact ⟨_, rfl, rfl, fun _ => rfl, by simp [hz, hw], by simp [hz, hw]; rfl⟩
  · rw [if_neg hz]
    have hreported : (s.task c).waitReported = false := by
      cases hr : (s.task c).waitReported with
      | false => rfl
      | true => simp [hz, hr] at hcond
    have hno : ¬((s.task c).exitState = .zombie ∧ w.has wnowait = false) := fun hc => hz hc.1
    by_cases hstop : w.has wuntraced = true ∧ (s.task c).exitState = .stopped
    · rw [if_pos ⟨hstop.1, hstop.2, hreported⟩]
      exact ⟨_, rfl, rfl, fun hc => absurd hc hz, (if_neg hno).symm, (if_neg hno).symm⟩
    · rw [if_neg (fun hc => hstop ⟨hc.1, hc.2.1⟩), if_pos]
      · exact ⟨_, rfl, rfl, fun hc => absurd hc hz, (if_neg hno).symm, (if_neg hno).symm⟩
      · simp only [hz, hreported, Bool.not_false, Bool.true_and, Bool.or_eq_true, Bool.and_eq_true, decide_eq_true_eq,
          decide_false, Bool.false_eq_true, false_or, hstop] at hcond
        exact ⟨hcond.1, hcond.2, hreported⟩

/-- **The scan stops at the first child that has something to report.** -/
theorem scan_seg (found : Bool) : ∀ {xs : List Nat} {a : Node} {fuel : Nat},
    s.links.Seg a (xs.map Node.sibling) (.children p) → xs.length < fuel → scan s p w fuel (s.links.next a) found =
      match xs.find? (ready s p w) with
      | some c => visit s p w c
      | none => some (scanEnd s p w (found || xs.any (matched s p w)))
  | _, _, 0, _, h => absurd h (Nat.not_lt_zero _)
  | [], a, fuel + 1, hseg, _ => by
    unfold scan
    rw [show s.links.next a = .children p from hseg.1, if_pos rfl, List.find?_nil, List.any_nil, Bool.or_false]
  | c :: xs, a, fuel + 1, hseg, hf => by
    obtain ⟨hlink, hseg⟩ := hseg
    rw [show s.links.next a = .sibling c from hlink.1, scan, if_neg (fun h => by cases h), List.find?_cons]
    cases hc : ready s p w c with
    | true =>
      obtain ⟨o, ho, -⟩ := visit_of_ready hc
      simp only [ho]
    | false =>
      simp only [visit_of_not_ready hc]
      rw [scan_seg _ hseg (Nat.lt_of_succ_lt_succ hf), List.any_cons, Bool.or_assoc]
      rfl

theorem Lists.mem_next (hl : Lists s q) (hc : c ∈ q p) : s.links.next (.sibling c) ≠ .null := by
  have hring := hl.ring p
  have hm := hring.seg.next_mem_of_mem (List.mem_cons_of_mem _ (List.mem_map_of_mem (f := Node.sibling) hc))
  intro hnull
  rw [hnull] at hm
  simp at hm

theorem Lists.mem_prev (hl : Lists s q) (hc : c ∈ q p) : s.links.prev (.sibling c) ≠ .null := by
  obtain ⟨ys, zs, hsplit⟩ := List.append_of_mem (List.mem_map_of_mem (f := Node.sibling) hc)
  have hring := hl.ring p
  rw [hsplit] at hring
  have hm := hring.rotate.seg.prev_mem
  intro hnull
  rw [hnull] at hm
  have hno : Node.null ∉ ys ++ Node.sibling c :: zs := by
    rw [← hsplit]
    simp
  simp only [List.mem_cons, List.mem_append, reduceCtorEq, false_or, not_or] at hm hno
  exact hm.elim hno.2 hno.1

theorem Lists.keep (hl : Lists s q) (hlinks : s'.links = s.links) :
    Lists s' fun p' => (q p').filter fun d => none ≠ some d := by
  unfold Lists at hl ⊢
  rw [hlinks]
  simpa only [ne_eq, reduceCtorEq, not_false_eq_true, decide_true, List.filter_true] using hl

/-- **A child that is taken out leaves one list**, and the others are as they were. -/
theorem Lists.detach (hl : Lists s q) (hc : c ∈ q p) (hlinks : s'.links = WaitLaw.detach s.links c) :
    Lists s' fun p' => (q p').filter fun d => some c ≠ some d := by
  have hfilter : (fun p' => (q p').filter fun d => some c ≠ some d) = Function.update q p ((q p).erase c) := by
    funext p'
    by_cases hp : p' = p
    · subst hp
      rw [Function.update_self, (hl.nodup_map p').erase_eq_filter]
      refine List.filter_congr fun d _ => ?_
      by_cases hd : d = c
      · simp [hd]
      · simp [hd, Ne.symm hd]
    · rw [Function.update_of_ne hp, List.filter_eq_self]
      intro d hd
      have hne : c ≠ d := by
        rintro rfl
        exact hp (hl.apart p' p (.sibling c) (List.mem_map_of_mem hd) (List.mem_map_of_mem hc))
      simpa using hne
  unfold Lists
  rw [hfilter, hlinks, WaitLaw.detach, if_pos ⟨hl.mem_next hc, hl.mem_prev hc⟩]
  exact hl.listDel_map _ sibling_injective hc

/-- **A pass ends**, at the first child that has something to report or behind the last one. -/
theorem doWait_ends (hl : Lists s q) (p : Nat) (w : Call) :
    ∃ o, (∀ fuel, (q p).length < fuel → doWait s p w fuel = some o) ∧
      ((∃ c, (q p).find? (ready s p w) = some c ∧ Visited s w c o) ∨
        ((q p).find? (ready s p w) = none ∧ o = scanEnd s p w ((q p).any (matched s p w)))) := by
  have hscan : ∀ fuel, (q p).length < fuel → doWait s p w fuel = match (q p).find? (ready s p w) with
      | some c => visit s p w c
      | none => some (scanEnd s p w (false || (q p).any (matched s p w))) :=
    fun _ hf => scan_seg false (hl.ring p).seg hf
  cases hfind : (q p).find? (ready s p w) with
  | none =>
    simp only [hfind, Bool.false_or] at hscan
    exact ⟨_, hscan, .inr ⟨rfl, rfl⟩⟩
  | some c =>
    obtain ⟨o, ho, hv⟩ := visit_of_ready (List.find?_some hfind)
    simp only [hfind, ho] at hscan
    exact ⟨o, hscan, .inl ⟨c, rfl, hv⟩⟩

theorem scanEnd_state (s : State) (p : Nat) (w : Call) (found : Bool) :
    (scanEnd s p w found).state = s ∧ (scanEnd s p w found).reaped = none := by
  unfold scanEnd
  repeat' split
  all_goals exact ⟨rfl, rfl⟩

/-- **The lists after a call**: at most one child leaves them, and it is one of the caller's. -/
theorem Visited.lists (hl : Lists s q) {o : Outcome} (hc : c ∈ q p) (hv : Visited s w c o) :
    Lists o.state fun p' => (q p').filter fun d => o.reaped ≠ some d := by
  have hlinks := hv.links
  rw [hv.reaped]
  split
  · rename_i hz
    rw [if_pos hz] at hlinks
    exact hl.detach hc hlinks
  · rename_i hz
    rw [if_neg hz] at hlinks
    exact hl.keep hlinks

theorem Lists.scanEnd (hl : Lists s q) (found : Bool) : Lists (scanEnd s p w found).state fun p' =>
    (q p').filter fun d => (WaitLaw.scanEnd s p w found).reaped ≠ some d := by
  obtain ⟨hstate, hreaped⟩ := scanEnd_state s p w found
  rw [hreaped]
  exact hl.keep (by rw [hstate])

/-- **One call**, on any lists. -/
theorem doWait_law (hl : Lists s q) (hw : w.has wnohang = true) :
    ∃ o, (∀ fuel, (q p).length < fuel → doWait s p w fuel = some o) ∧ Law s q p w o := by
  obtain ⟨o, hrun, ⟨c, hfind, hv⟩ | ⟨hfind, rfl⟩⟩ := doWait_ends hl p w
  · have hready := List.find?_some hfind
    have hc := List.mem_of_find?_eq_some hfind
    have hm : matched s p w c = true := ((Bool.and_eq_true _ _).mp hready).1
    refine ⟨o, hrun, ?_, ?_, ?_, ?_, ?_, ?_, hv.lists hl hc⟩
    · intro hno
      rw [hno c hc] at hm
      cases hm
    · intro hpid hret
      rw [hv.ret] at hret
      exact absurd (Option.some.inj hret) (hpid c hc)
    · intro d hd
      rw [hfind] at hd
      cases hd
      exact hv.ret
    · intro _ hno
      rw [hno c hc] at hready
      cases hready
    · intro d hd hz hput
      rw [hfind] at hd
      cases hd
      exact ⟨_, by rw [hv.status hz, Call.put, if_pos hput], exitStatus_eq _⟩
    · intro d
      rw [hv.reaped, hfind]
      split
      · rename_i hz
        constructor
        · intro h
          cases h
          exact ⟨rfl, hz⟩
        · exact fun h => h.1
      · rename_i hz
        constructor
        · intro h
          cases h
        · rintro ⟨h, hz'⟩
          cases h
          exact absurd hz' hz
  · have hnone : ∀ c, (q p).find? (ready s p w) ≠ some c := fun c hc => by
      rw [hfind] at hc
      cases hc
    have hreaped : ∀ found c, (scanEnd s p w found).reaped ≠ some c := fun found c hc => by
      rw [(scanEnd_state s p w found).2] at hc
      cases hc
    cases hany : (q p).any (matched s p w) with
    | false =>
      rw [hany] at hrun
      have hnobody : ∀ c ∈ q p, matched s p w c = false := by simpa only [List.any_eq_false, Bool.not_eq_true] using hany
      refine ⟨_, hrun, fun _ => rfl, fun _ _ => hnobody, fun c hc => absurd hc (hnone c), ?_,
        fun c hc => absurd hc (hnone c), ?_, hl.scanEnd false⟩
      · rintro ⟨c, hc, hm⟩
        rw [hnobody c hc] at hm
        cases hm
      · exact fun c => iff_of_false (hreaped false c) fun h => hnone c h.1
    | true =>
      rw [hany] at hrun
      obtain ⟨c, hc, hm⟩ := List.any_eq_true.1 hany
      have hret : (scanEnd s p w true).ret = some 0 := by
        unfold WaitLaw.scanEnd
        rw [if_neg (by decide), if_pos hw]
      refine ⟨_, hrun, ?_, ?_, fun c hc => absurd hc (hnone c), fun _ _ => hret,
        fun c hc => absurd hc (hnone c), fun c => iff_of_false (hreaped true c) fun h => hnone c h.1, hl.scanEnd true⟩
      · intro hno
        rw [hno c hc] at hm
        cases hm
      · intro _ h
        rw [hret] at h
        cases h

/-! ## Runs -/

/-- The kernel, with the tasks there ever were and those reaped. -/
structure System where
  st : State
  born : List Nat
  reaped : List Nat

inductive Label where
  | wait (p : Nat) (w : Call) (fuel : Nat)
  | fork (p c : Nat) (task : Task)             -- a new task, its own list heads set up
  | touch (c : Nat) (task : Task)              -- a task exits, stops, goes on or is signalled

def step (sys : System) : Label → Option System
  | .wait p w fuel => (doWait sys.st p w fuel).map fun o =>
    { sys with st := o.state, reaped := o.reaped.toList ++ sys.reaped }
  | .fork p c task =>
    if c ∈ sys.born then none
    else some { sys with
      st := { sys.st.setTask c task with links := sys.st.links.listAddTail (.sibling c) (.children p) }
      born := c :: sys.born }
  | .touch c task => some { sys with st := sys.st.setTask c task }

/-- Any lists of tasks, nobody reaped yet. -/
def machine : Machine System Label where
  init sys := (∃ q, Lists sys.st q ∧ ∀ p, ∀ c ∈ q p, c ∈ sys.born) ∧ sys.reaped = []
  step := step

/-- **Nobody is reaped twice**, since who was reaped is in no list. -/
structure Once (sys : System) (q : Nat → List Nat) : Prop where
  lists : Lists sys.st q
  born : ∀ p, ∀ c ∈ q p, c ∈ sys.born
  listed : ∀ p, ∀ c ∈ q p, c ∉ sys.reaped
  old : ∀ c ∈ sys.reaped, c ∈ sys.born
  nodup : sys.reaped.Nodup

/-- More steps change nothing. -/
theorem scan_mono : ∀ {fuel fuel' : Nat} {pos : Node} {found : Bool} {o : Outcome}, scan s p w fuel pos found = some o →
    fuel ≤ fuel' → scan s p w fuel' pos found = some o
  | 0, _, _, _, _, h, _ => by cases h
  | fuel + 1, 0, _, _, _, _, hle => absurd hle (Nat.not_succ_le_zero fuel)
  | fuel + 1, fuel' + 1, pos, found, o, h, hle => by
    unfold scan at h ⊢
    split at h
    · rename_i hpos
      rw [if_pos hpos]
      exact h
    · rename_i hpos
      rw [if_neg hpos]
      cases pos with
      | null => cases h
      | children p' => cases h
      | sibling c =>
        simp only at h ⊢
        cases hv : visit s p w c with
        | some o' =>
          rw [hv] at h
          exact h
        | none =>
          rw [hv] at h
          exact scan_mono h (Nat.le_of_succ_le_succ hle)

/-- **A call that returned or went to sleep**: who is reaped was in the caller's list and is in none now. -/
theorem doWait_reaped (hl : Lists s q) {fuel : Nat} {o : Outcome} (h : doWait s p w fuel = some o) :
    (∀ c, o.reaped = some c → c ∈ q p) ∧ Lists o.state fun p' => (q p').filter fun d => o.reaped ≠ some d := by
  obtain ⟨o', hrun, hcase⟩ := doWait_ends hl p w
  have heq : o = o' := by
    have h1 : doWait s p w (max fuel ((q p).length + 1)) = some o := scan_mono h (Nat.le_max_left _ _)
    have h2 := hrun (max fuel ((q p).length + 1)) (Nat.le_max_right _ _)
    exact Option.some.inj (h1.symm.trans h2)
  subst heq
  rcases hcase with ⟨c, hfind, hv⟩ | ⟨-, rfl⟩
  · have hc := List.mem_of_find?_eq_some hfind
    refine ⟨fun d hd => ?_, hv.lists hl hc⟩
    rw [hv.reaped] at hd
    split at hd
    · cases hd
      exact hc
    · cases hd
  · refine ⟨fun c hc => ?_, hl.scanEnd _⟩
    rw [(scanEnd_state s p w _).2] at hc
    cases hc

theorem Once.step {sys sys' : System} {a : Label} (h : Once sys q) (hs : step sys a = some sys') :
    ∃ q', Once sys' q' := by
  cases a with
  | wait p w fuel =>
    obtain ⟨o, ho, rfl⟩ := Option.map_eq_some_iff.1 hs
    obtain ⟨hmem, hl⟩ := doWait_reaped h.lists ho
    refine ⟨_, hl, fun p' c hc => h.born p' c (List.mem_of_mem_filter hc), fun p' c hc => ?_, ?_, ?_⟩
    · obtain ⟨hc, hne⟩ := List.mem_filter.1 hc
      rw [List.mem_append, not_or]
      exact ⟨fun hr => of_decide_eq_true hne (Option.mem_toList.1 hr), h.listed p' c hc⟩
    · intro c hc
      rcases List.mem_append.1 hc with hc | hc
      · exact h.born p c (hmem c (Option.mem_toList.1 hc))
      · exact h.old c hc
    · refine List.nodup_append'.2 ⟨?_, h.nodup, fun c hc => h.listed p c (hmem c (Option.mem_toList.1 hc))⟩
      cases o.reaped with
      | none => exact List.nodup_nil
      | some c => exact List.nodup_singleton c
  | fork p c task =>
    simp only [WaitLaw.step] at hs
    split at hs
    · cases hs
    · rename_i hnew
      cases hs
      have hno : ∀ p', c ∉ q p' := fun p' hc => hnew (h.born p' c hc)
      refine ⟨_, h.lists.listAddTail_map (i := p) sibling_injective (fun _ hc => by cases hc) hno, fun p' d hd => ?_,
        fun p' d hd => ?_, fun d hd => List.mem_cons_of_mem _ (h.old d hd), h.nodup⟩
      · by_cases hp : p' = p
        · subst hp
          rw [Function.update_self, List.mem_append, List.mem_singleton] at hd
          exact hd.elim (fun hd => List.mem_cons_of_mem _ (h.born p' d hd)) fun hd => hd ▸ List.mem_cons_self
        · rw [Function.update_of_ne hp] at hd
          exact List.mem_cons_of_mem _ (h.born p' d hd)
      · by_cases hp : p' = p
        · subst hp
          rw [Function.update_self, List.mem_append, List.mem_singleton] at hd
          exact hd.elim (h.listed p' d) fun hd hr => hnew (hd ▸ h.old d hr)
        · rw [Function.update_of_ne hp] at hd
          exact h.listed p' d hd
  | touch c task =>
    cases hs
    exact ⟨q, h.lists, h.born, h.listed, h.old, h.nodup⟩

/-- **The law of `wait4`**: in every run over any lists nobody is reaped twice, and each call with `WNOHANG` ends and
obeys the law on the lists it finds. -/
theorem law_of_run (l : List Label) (sys sys' : System) (h0 : machine.init sys) (h : machine.run sys l = some sys') :
    sys'.reaped.Nodup ∧ ∃ q, Lists sys'.st q ∧ ∀ p w, w.has wnohang = true →
      ∃ o, (∀ fuel, (q p).length < fuel → doWait sys'.st p w fuel = some o) ∧ Law sys'.st q p w o := by
  obtain ⟨⟨q0, hl0, hborn⟩, hr0⟩ := h0
  have hinit : ∃ q, Once sys q := by
    refine ⟨q0, hl0, hborn, fun p c _ => ?_, fun c hc => ?_, ?_⟩
    · rw [hr0]
      exact List.not_mem_nil
    · rw [hr0] at hc
      cases hc
    · rw [hr0]
      exact List.nodup_nil
  obtain ⟨q, ho⟩ := machine.run_invariant (P := fun sys => ∃ q, Once sys q)
    (fun _ _ _ hP hs => hP.elim fun _ hP => hP.step hs) l sys sys' hinit h
  exact ⟨ho.nodup, q, ho.lists, fun p w hw => doWait_law ho.lists hw⟩

/-- No task has children. -/
def alone : System where
  st := ⟨fun _ => ⟨⟨1, 1, some 1, .running, false, .alive⟩, 0#32, 0#32, 0, 0, none, false⟩, ⟨id, id⟩⟩
  born := [1]
  reaped := []

theorem alone_init : machine.init alone := by
  refine ⟨⟨fun _ => [], ⟨fun p => Links.ring_nil rfl rfl, fun _ _ h => ?_, fun _ _ hm => ?_, fun _ _ _ hm => ?_⟩, ?_⟩,
    rfl⟩
  · cases h
    rfl
  · cases hm
  · cases hm
  · intro p c hc
    cases hc

/-- A child that exited with code 3. -/
def exited : Task := ⟨⟨2, 2, some 1, .zombie, false, .alive⟩, 3#32, 0#32, 5, 6, none, false⟩

/-- It is forked and waited for. -/
def forkWait : List Label := [.fork 1 2 exited, .wait 1 ⟨⟨-1, wnohang⟩, true, true⟩ 5]

theorem law_of_run_forkWait : ∃ sys, machine.run alone forkWait = some sys ∧ sys.reaped = [2] ∧
    sys.reaped.Nodup ∧ ∃ q, Lists sys.st q ∧ ∀ p w, w.has wnohang = true →
      ∃ o, (∀ fuel, (q p).length < fuel → doWait sys.st p w fuel = some o) ∧ Law sys.st q p w o := by
  have hrun : (machine.run alone forkWait).map System.reaped = some [2] := by decide +kernel
  obtain ⟨sys, h, hreaped⟩ := Option.map_eq_some_iff.1 hrun
  exact ⟨sys, h, hreaped, law_of_run _ alone sys alone_init h⟩

end WaitLaw
end Pico
