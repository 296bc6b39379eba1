import Mathlib.Data.List.Basic
import Mathlib.Logic.Function.Basic
import Picomimi.Lib.Word
/-!
# Select — `sys_select` of `kernel/syscall_stubs.c`

The call looks at the descriptors pass after pass, and clears those that are not ready from the caller's own sets, which
are what the next pass looks at.  A pass that finds nothing ready leaves nothing to look at but the write descriptors that
a missing read file made it skip.  So the call judges the sets it was given in its first pass, and in later ones
only while nothing in them is ready (`judges_iff`).
-/
namespace Pico
namespace Select

open Lib

def einval : Int := 22
def eintr : Int := 4
def pollin : Nat := 0x0001

/-- `fd_set_t`: 1024 bits in words. -/
abbrev FdSet := Fin 16 → BitVec 64

/-- `FD_ISSET` and `FD_CLR`. -/
def fdIsset (fd : Nat) (set : FdSet) : Bool := (set (Fin.ofNat 16 (fd / 64))).getLsbD (fd % 64)

def fdClr (fd : Nat) (set : FdSet) : FdSet :=
  Function.update set (Fin.ofNat 16 (fd / 64)) (set (Fin.ofNat 16 (fd / 64)) &&& ~~~(1#64 <<< (fd % 64)))

/-- What a file's `poll` answers, if it has one. -/
structure File where
  poll : Option Nat

/-- What `select` sees at a moment: the open files, the time, and whether a signal is pending for the caller. -/
structure World where
  file : Nat → Option File
  jiffies : Nat
  signal : Bool

/-- The caller's sets, which may be NULL. -/
structure Sets where
  rfds : Option FdSet
  wfds : Option FdSet

/-- `set && FD_ISSET(fd, set)`. -/
def isset (fd : Nat) (set : Option FdSet) : Bool := set.any (fdIsset fd)

def File.hasData (f : File) : Bool :=
  match f.poll with
  | none => true
  | some mask => mask &&& pollin ≠ 0

/-- The part of a turn for the write set. -/
def visitWrite (w : World) (fd : Nat) (acc : Nat × Sets) : Nat × Sets :=
  if isset fd acc.2.wfds then
    match w.file fd with
    | none => (acc.1, { acc.2 with wfds := acc.2.wfds.map (fdClr fd) })
    | some _ => (acc.1 + 1, acc.2)
  else acc

/-- One turn of the `for` loop, on `ready` and the sets. -/
def visit (w : World) (acc : Nat × Sets) (fd : Nat) : Nat × Sets :=
  if isset fd acc.2.rfds then
    match w.file fd with
    | none => (acc.1, { acc.2 with rfds := acc.2.rfds.map (fdClr fd) })        -- and `continue`
    | some f =>
      visitWrite w fd (if f.hasData then (acc.1 + 1, acc.2)
        else (acc.1, { acc.2 with rfds := acc.2.rfds.map (fdClr fd) }))
  else visitWrite w fd acc

def pass (w : World) (nfds : Nat) (s : Sets) : Nat × Sets := (List.range nfds).foldl (visit w) (0, s)

/-- The deadline, if there is a timeout; its fields as `u64`. -/
def deadlineOf (jiffies : Nat) : Option (Int × Int) → Option Nat
  | none => none
  | some (sec, usec) =>
    if sec = 0 ∧ usec = 0 then some jiffies
    else
      let secs := (sec % (word64 : Int)).toNat
      let usecs := (usec % (word64 : Int)).toNat
      some ((jiffies + (secs * 1000 + usecs / 1000)) % word64)

/-- `has_timeout && (s64)(jiffies - deadline) >= 0`. -/
def timedOut (w : World) (deadline : Option Nat) : Bool :=
  deadline.any fun d => sub64 w.jiffies d < 9223372036854775808

/-- The loop from pass `k` on, `w k` being what that pass sees: what is returned, and in which pass.  No result is a call
that has gone to sleep after each of its passes so far. -/
def selectLoop (w : Nat → World) (nfds : Nat) (deadline : Option Nat) : Nat → Nat → Sets → Option (Int × Sets × Nat)
  | 0, _, _ => none
  | fuel + 1, k, s =>
    let r := pass (w k) nfds s
    if 0 < r.1 then some (r.1, r.2, k)
    else if timedOut (w k) deadline then some (0, r.2, k)
    else if (w k).signal then some (-eintr, r.2, k)
    else selectLoop w nfds deadline fuel (k + 1) r.2

def sysSelect (nfds : Int) (s : Sets) (timeout : Option (Int × Int)) (jiffies : Nat) (w : Nat → World) (fuel : Nat) :
    Option (Int × Sets × Nat) :=
  if nfds < 0 ∨ 1024 < nfds then some (-einval, s, 0)
  else selectLoop w nfds.toNat (deadlineOf jiffies timeout) fuel 0 s

/-- A descriptor that may be read, or written: one of an open file. -/
def readReady (w : World) (fd : Nat) : Bool := (w.file fd).any File.hasData

def writeReady (w : World) (fd : Nat) : Bool := (w.file fd).isSome

/-- The ready descriptors of the sets. -/
def readyIn (w : World) (s : Sets) (fd : Nat) : Bool :=
  (isset fd s.rfds && readReady w fd) || (isset fd s.wfds && writeReady w fd)

/-- Their number: a descriptor that is ready in both sets is two. -/
def numReady (w : World) (nfds : Nat) (s : Sets) : Nat :=
  (List.range nfds).countP (fun fd => isset fd s.rfds && readReady w fd) +
    (List.range nfds).countP fun fd => isset fd s.wfds && writeReady w fd

/-- **`select` judges the sets it was given**: what it returns as ready are their ready descriptors and the number of
these, and it does not go to sleep while one of them is ready. -/
structure Judges (nfds : Int) (s : Sets) (timeout : Option (Int × Int)) (jiffies : Nat) (w : Nat → World) : Prop where
  exact : ∀ fuel n out k, sysSelect nfds s timeout jiffies w fuel = some (n, out, k) → 0 < n →
    (∀ fd : Nat, (fd : Int) < nfds → isset fd out.rfds = (isset fd s.rfds && readReady (w k) fd) ∧
      isset fd out.wfds = (isset fd s.wfds && writeReady (w k) fd)) ∧ n = numReady (w k) nfds.toNat s
  awake : ∀ fuel, sysSelect nfds s timeout jiffies w fuel = none → ∀ k < fuel, ∀ fd : Nat, (fd : Int) < nfds →
    readyIn (w k) s fd = false

/-- The call ends in a pass that finds nothing. -/
def ends (w : World) (deadline : Option Nat) : Bool := timedOut w deadline || w.signal

def AnyReady (w : World) (nfds : Nat) (s : Sets) : Prop := ∃ fd < nfds, readyIn w s fd = true

/-- **When it does.**  If something is ready in the first pass: no descriptor that is in both sets is closed.  Otherwise,
if the call goes to sleep, nothing of the sets becomes ready before it ends; only descriptors that are in both sets, to
be written, are seen in the second pass, and they must be all. -/
def Seen (nfds : Nat) (s : Sets) (deadline : Option Nat) (w : Nat → World) : Prop :=
  (AnyReady (w 0) nfds s → ∀ fd < nfds, isset fd s.rfds = true → isset fd s.wfds = true → writeReady (w 0) fd = true) ∧
    (¬AnyReady (w 0) nfds s → ends (w 0) deadline = false →
      ((∃ fd < nfds, (isset fd s.rfds && isset fd s.wfds && writeReady (w 1) fd) = true) →
        ∀ fd < nfds, (isset fd s.rfds && readReady (w 1) fd) = false ∧
          (isset fd s.wfds = true → writeReady (w 1) fd = true → isset fd s.rfds = true)) ∧
      ((∀ fd < nfds, (isset fd s.rfds && isset fd s.wfds && writeReady (w 1) fd) = false) →
        ∀ k, 1 ≤ k → (∀ j, 1 ≤ j → j ≤ k → ends (w j) deadline = false) → ¬AnyReady (w k) nfds s))

variable {nfds fd fd' n k fuel : Nat} {s c : Sets} {w : World} {W : Nat → World} {deadline : Option Nat}
  {set : Option FdSet}

/-! ## One pass -/

theorem fdIsset_fdClr {set : FdSet} (h : fd < 1024) (h' : fd' < 1024) :
    fdIsset fd' (fdClr fd set) = (fdIsset fd' set && decide (fd' ≠ fd)) := by
  have hword : (Fin.ofNat 16 (fd' / 64) = Fin.ofNat 16 (fd / 64)) ↔ fd' / 64 = fd / 64 := by
    rw [Fin.ext_iff, Fin.val_ofNat, Fin.val_ofNat, Nat.mod_eq_of_lt (by omega), Nat.mod_eq_of_lt (by omega)]
  have hlt : fd' % 64 < 64 := Nat.mod_lt _ (by decide)
  unfold fdIsset fdClr
  by_cases hw : fd' / 64 = fd / 64
  · rw [hword.2 hw, Function.update_self, BitVec.getLsbD_and, BitVec.getLsbD_not, BitVec.getLsbD_shiftLeft,
      BitVec.getLsbD_one, decide_eq_true hlt]
    congr 1
    by_cases heq : fd' % 64 = fd % 64
    · have : fd' = fd := by omega
      simp [this]
    · have hne : fd' ≠ fd := fun he => heq (by rw [he])
      rw [decide_eq_true hne]
      simp only [Bool.true_and, Bool.not_eq_true', Bool.and_eq_false_iff, Bool.not_eq_false', decide_eq_true_iff,
        decide_eq_false_iff_not]
      omega
  · have hne : fd' ≠ fd := fun he => hw (by rw [he])
    rw [Function.update_of_ne (fun he => hw (hword.1 he)), decide_eq_true hne, Bool.and_true]

theorem isset_clr (h : fd < 1024) (h' : fd' < 1024) :
    isset fd' (set.map (fdClr fd)) = (isset fd' set && decide (fd' ≠ fd)) := by
  cases set with
  | none => rfl
  | some set => exact fdIsset_fdClr h h'

theorem visitWrite_spec (acc : Nat × Sets) (h : fd < 1024) (h' : fd' < 1024) :
    (visitWrite w fd acc).2.rfds = acc.2.rfds ∧
      isset fd' (visitWrite w fd acc).2.wfds = (isset fd' acc.2.wfds && (writeReady w fd || decide (fd' ≠ fd))) ∧
      (visitWrite w fd acc).1 = acc.1 + (if isset fd acc.2.wfds && writeReady w fd then 1 else 0) := by
  unfold visitWrite writeReady
  cases hset : isset fd acc.2.wfds with
  | false =>
    refine ⟨rfl, ?_, rfl⟩
    rw [if_neg Bool.false_ne_true]
    by_cases he : fd' = fd
    · rw [he, hset]
      rfl
    · rw [decide_eq_true he, Bool.or_true, Bool.and_true]
  | true =>
    rw [if_pos rfl]
    cases w.file fd with
    | none => exact ⟨rfl, by rw [Option.isSome_none, Bool.false_or]; exact isset_clr h h', rfl⟩
    | some f => exact ⟨rfl, by rw [Option.isSome_some, Bool.true_or, Bool.and_true], rfl⟩

/-- **What a turn makes of every descriptor's bits**, and what it counts. -/
theorem visit_spec (acc : Nat × Sets) (h : fd < 1024) (h' : fd' < 1024) :
    isset fd' (visit w acc fd).2.rfds = (isset fd' acc.2.rfds && (readReady w fd || decide (fd' ≠ fd))) ∧
      isset fd' (visit w acc fd).2.wfds =
        (isset fd' acc.2.wfds && (writeReady w fd || isset fd acc.2.rfds || decide (fd' ≠ fd))) ∧
      (visit w acc fd).1 = acc.1 + (if isset fd acc.2.rfds && readReady w fd then 1 else 0) +
        (if isset fd acc.2.wfds && writeReady w fd then 1 else 0) := by
  unfold visit
  cases hset : isset fd acc.2.rfds with
  | false =>
    rw [if_neg Bool.false_ne_true]
    obtain ⟨hr, hw, hn⟩ := visitWrite_spec (w := w) acc h h'
    refine ⟨?_, ?_, ?_⟩
    · rw [hr]
      by_cases he : fd' = fd
      · rw [he, hset]
        rfl
      · rw [decide_eq_true he, Bool.or_true, Bool.and_true]
    · rw [hw, Bool.or_false]
    · rw [hn]
      simp
  | true =>
    rw [if_pos rfl]
    cases hf : w.file fd with
    | none =>
      have hread : readReady w fd = false := by rw [readReady, hf, Option.any_none]
      have hwrite : writeReady w fd = false := by rw [writeReady, hf, Option.isSome_none]
      refine ⟨?_, ?_, ?_⟩
      · rw [hread, Bool.false_or]
        exact isset_clr h h'
      · simp
      · simp [hread, hwrite]
    | some f =>
      have hread : readReady w fd = f.hasData := by rw [readReady, hf, Option.any_some]
      have hwrite : writeReady w fd = true := by rw [writeReady, hf, Option.isSome_some]
      dsimp only
      cases hd : f.hasData with
      | true =>
        rw [if_pos rfl]
        obtain ⟨hr, hw, hn⟩ := visitWrite_spec (w := w) (acc.1 + 1, acc.2) h h'
        rw [hr, hw, hn, hread, hd, hwrite]
        simp
      | false =>
        rw [if_neg Bool.false_ne_true]
        obtain ⟨hr, hw, hn⟩ := visitWrite_spec (w := w)
          (acc.1, { acc.2 with rfds := acc.2.rfds.map (fdClr fd) }) h h'
        rw [hr, hw, hn, hread, hd, hwrite]
        simp [isset_clr h h']

/-- **What a pass leaves of the sets, and what it counts**; the induction is on the descriptors it has looked at. -/
theorem pass_spec (w : World) (s : Sets) : ∀ n, n ≤ 1024 →
    (∀ fd < 1024, isset fd (pass w n s).2.rfds = (isset fd s.rfds && (readReady w fd || decide (n ≤ fd))) ∧
      isset fd (pass w n s).2.wfds =
        (isset fd s.wfds && (writeReady w fd || isset fd s.rfds || decide (n ≤ fd)))) ∧
      (pass w n s).1 = numReady w n s
  | 0, _ => ⟨fun fd _ => by simp [pass], rfl⟩
  | n + 1, hn => by
    obtain ⟨ih, hcount⟩ := pass_spec w s n (by omega)
    have hstep : pass w (n + 1) s = visit w (pass w n s) n := by
      unfold pass
      rw [List.range_succ, List.foldl_append, List.foldl_cons, List.foldl_nil]
    obtain ⟨hr, hw⟩ := ih n (by omega)
    rw [decide_eq_true (Nat.le_refl n), Bool.or_true, Bool.and_true] at hr hw
    refine ⟨fun fd hfd => ?_, ?_⟩
    · obtain ⟨hr', hw', -⟩ := visit_spec (w := w) (pass w n s) (show n < 1024 by omega) hfd
      obtain ⟨hri, hwi⟩ := ih fd hfd
      rw [hstep, hr', hw', hri, hwi, hr]
      by_cases he : fd = n
      · subst he
        have hle : ¬fd + 1 ≤ fd := by omega
        simp [hle]
      · have hle : (n + 1 ≤ fd) ↔ (n ≤ fd) := by omega
        simp [he, hle]
    · obtain ⟨-, -, hn'⟩ := visit_spec (w := w) (pass w n s) (show n < 1024 by omega) (show n < 1024 by omega)
      rw [hstep, hn', hcount, hr, hw]
      unfold numReady
      rw [List.range_succ, List.countP_append, List.countP_append, List.countP_singleton, List.countP_singleton]
      omega

theorem numReady_pos : 0 < numReady w nfds s ↔ AnyReady w nfds s := by
  unfold numReady AnyReady readyIn
  rw [Nat.add_pos_iff_pos_or_pos, List.countP_pos_iff, List.countP_pos_iff]
  simp only [List.mem_range, Bool.or_eq_true]
  constructor
  · rintro (⟨fd, hfd, h⟩ | ⟨fd, hfd, h⟩)
    · exact ⟨fd, hfd, .inl h⟩
    · exact ⟨fd, hfd, .inr h⟩
  · rintro ⟨fd, hfd, h | h⟩
    · exact .inl ⟨fd, hfd, h⟩
    · exact .inr ⟨fd, hfd, h⟩

/-! ## The loop -/

/-- A pass that finds something ready is the last. -/
theorem selectLoop_ready (hn : nfds ≤ 1024) (h : AnyReady (W k) nfds c) :
    selectLoop W nfds deadline (fuel + 1) k c = some ((numReady (W k) nfds c : Int), (pass (W k) nfds c).2, k) := by
  have hpos := numReady_pos.2 h
  unfold selectLoop
  dsimp only
  rw [(pass_spec (W k) c nfds hn).2, if_pos hpos]

/-- A pass that finds nothing is the last when the time is up or a signal is pending. -/
theorem selectLoop_ends (fuel : Nat) (hn : nfds ≤ 1024) (h : ¬AnyReady (W k) nfds c) (he : ends (W k) deadline = true) :
    ∃ n out, n ≤ 0 ∧ selectLoop W nfds deadline (fuel + 1) k c = some (n, out, k) := by
  have hzero := fun hpos => h (numReady_pos.1 hpos)
  unfold selectLoop
  dsimp only
  rw [(pass_spec (W k) c nfds hn).2, if_neg hzero]
  unfold ends at he
  rw [Bool.or_eq_true] at he
  by_cases ht : timedOut (W k) deadline = true
  · exact ⟨0, _, Int.le_refl 0, if_pos ht⟩
  · refine ⟨-eintr, (pass (W k) nfds c).2, by decide, ?_⟩
    rw [if_neg ht, if_pos (he.resolve_left ht)]

/-- Otherwise the call sleeps, and looks again at what is left. -/
theorem selectLoop_sleeps (hn : nfds ≤ 1024) (h : ¬AnyReady (W k) nfds c) (he : ends (W k) deadline = false) :
    selectLoop W nfds deadline (fuel + 1) k c = selectLoop W nfds deadline fuel (k + 1) (pass (W k) nfds c).2 := by
  have hzero := fun hpos => h (numReady_pos.1 hpos)
  unfold ends at he
  rw [Bool.or_eq_false_iff] at he
  rw [selectLoop, (pass_spec (W k) c nfds hn).2, if_neg hzero, if_neg (by rw [he.1]; exact Bool.false_ne_true),
    if_neg (by rw [he.2]; exact Bool.false_ne_true)]

/-- Sets with nothing to look at. -/
def Blank (nfds : Nat) (c : Sets) : Prop := ∀ fd < nfds, isset fd c.rfds = false ∧ isset fd c.wfds = false

theorem Blank.not_ready (h : Blank nfds c) (w : World) : ¬AnyReady w nfds c := by
  rintro ⟨fd, hfd, hr⟩
  unfold readyIn at hr
  rw [(h fd hfd).1, (h fd hfd).2] at hr
  cases hr

theorem Blank.pass (h : Blank nfds c) (hn : nfds ≤ 1024) (w : World) : Blank nfds (pass w nfds c).2 := by
  intro fd hfd
  obtain ⟨hr, hw⟩ := (pass_spec w c nfds hn).1 fd (by omega)
  rw [hr, hw, (h fd hfd).1, (h fd hfd).2]
  exact ⟨rfl, rfl⟩

/-- **With nothing to look at** the call finds nothing, and sleeps until the time is up or a signal is pending. -/
theorem Blank.loop (W : Nat → World) (deadline : Option Nat) (hn : nfds ≤ 1024) :
    ∀ (fuel k : Nat) {c : Sets}, Blank nfds c →
    (∀ n out j, selectLoop W nfds deadline fuel k c = some (n, out, j) → n ≤ 0) ∧
      (selectLoop W nfds deadline fuel k c = none ↔ ∀ j, k ≤ j → j < k + fuel → ends (W j) deadline = false)
  | 0, k, c, _ => ⟨fun n out j h => (by cases h), iff_of_true rfl fun j h1 h2 => (by omega)⟩
  | fuel + 1, k, c, h => by
    cases he : ends (W k) deadline with
    | true =>
      obtain ⟨n, out, hle, hs⟩ := selectLoop_ends fuel hn (h.not_ready (W k)) he
      rw [hs]
      refine ⟨fun n' out' j' heq => ?_, iff_of_false (fun heq => by cases heq) fun hall => ?_⟩
      · cases heq
        exact hle
      · have := hall k (Nat.le_refl k) (by omega)
        rw [he] at this
        cases this
    | false =>
      rw [selectLoop_sleeps hn (h.not_ready (W k)) he]
      obtain ⟨hle, hnone⟩ := Blank.loop W deadline hn fuel (k + 1) (h.pass hn (W k))
      refine ⟨hle, hnone.trans ⟨fun hall j h1 h2 => ?_, fun hall j h1 h2 => hall j (by omega) (by omega)⟩⟩
      by_cases hj : j = k
      · rw [hj]
        exact he
      · exact hall j (by omega) (by omega)

/-- **What the second pass looks at**, if the first has found nothing: what is in both sets, to be written. -/
theorem second_pass (hn : nfds ≤ 1024) (h : ¬AnyReady (W 0) nfds s) (hfd : fd < nfds) :
    isset fd (pass (W 0) nfds s).2.rfds = false ∧
      isset fd (pass (W 0) nfds s).2.wfds = (isset fd s.rfds && isset fd s.wfds) := by
  obtain ⟨hr, hw⟩ := (pass_spec (W 0) s nfds hn).1 fd (by omega)
  have hno : readyIn (W 0) s fd = false := by
    rw [← Bool.not_eq_true]
    exact fun hyes => h ⟨fd, hfd, hyes⟩
  unfold readyIn at hno
  rw [Bool.or_eq_false_iff] at hno
  have hge : ¬nfds ≤ fd := by omega
  rw [hr, hw, decide_eq_false hge, Bool.or_false, Bool.or_false]
  refine ⟨hno.1, ?_⟩
  rw [Bool.and_or_distrib_left, hno.2, Bool.false_or, Bool.and_comm]

/-! ## The condition -/

/-- What `Judges` asks, of the loop. -/
structure JudgesLoop (nfds : Nat) (s : Sets) (deadline : Option Nat) (W : Nat → World) : Prop where
  exact : ∀ fuel n out k, selectLoop W nfds deadline fuel 0 s = some (n, out, k) → 0 < n →
    (∀ fd < nfds, isset fd out.rfds = (isset fd s.rfds && readReady (W k) fd) ∧
      isset fd out.wfds = (isset fd s.wfds && writeReady (W k) fd)) ∧ n = numReady (W k) nfds s
  awake : ∀ fuel, selectLoop W nfds deadline fuel 0 s = none → ∀ k < fuel, ∀ fd < nfds, readyIn (W k) s fd = false

theorem not_anyReady : ¬AnyReady w nfds s ↔ ∀ fd < nfds, readyIn w s fd = false := by
  unfold AnyReady
  simp only [not_exists, not_and, Bool.not_eq_true]

/-- **The call that returns in its first pass.** -/
theorem judgesLoop_first (hn : nfds ≤ 1024) (h : AnyReady (W 0) nfds s) :
    JudgesLoop nfds s deadline W ↔
      ∀ fd < nfds, isset fd s.rfds = true → isset fd s.wfds = true → writeReady (W 0) fd = true := by
  have hloop : ∀ fuel, selectLoop W nfds deadline (fuel + 1) 0 s = _ := fun fuel => selectLoop_ready hn h
  have hbits : ∀ fd < nfds, isset fd (pass (W 0) nfds s).2.rfds = (isset fd s.rfds && readReady (W 0) fd) ∧
      isset fd (pass (W 0) nfds s).2.wfds = (isset fd s.wfds && (writeReady (W 0) fd || isset fd s.rfds)) := by
    intro fd hfd
    obtain ⟨hr, hw⟩ := (pass_spec (W 0) s nfds hn).1 fd (by omega)
    have hge : ¬nfds ≤ fd := by omega
    rw [hr, hw, decide_eq_false hge, Bool.or_false, Bool.or_false]
    exact ⟨rfl, rfl⟩
  constructor
  · intro hj fd hfd hr hw
    have hpos : (0 : Int) < numReady (W 0) nfds s := Int.natCast_pos.2 (numReady_pos.2 h)
    have := ((hj.exact 1 _ _ 0 (hloop 0) hpos).1 fd hfd).2
    rw [(hbits fd hfd).2, hr, hw, Bool.or_true, Bool.true_and, Bool.true_and] at this
    exact this.symm
  · refine fun hopen => ⟨fun fuel n out k hs _ => ?_, fun fuel hs k hk => ?_⟩
    · cases fuel with
      | zero => cases hs
      | succ fuel =>
        rw [hloop fuel] at hs
        cases hs
        refine ⟨fun fd hfd => ?_, rfl⟩
        rw [(hbits fd hfd).1, (hbits fd hfd).2]
        refine ⟨rfl, ?_⟩
        cases hr : isset fd s.rfds with
        | false => rw [Bool.or_false]
        | true =>
          cases hw : isset fd s.wfds with
          | false => rfl
          | true => rw [hopen fd hfd hr hw, Bool.true_or]
    · cases fuel with
      | zero => omega
      | succ fuel =>
        rw [hloop fuel] at hs
        cases hs

/-- The call that ends in its first pass with nothing to show. -/
theorem judgesLoop_ended (hn : nfds ≤ 1024) (h : ¬AnyReady (W 0) nfds s) (he : ends (W 0) deadline = true) :
    JudgesLoop nfds s deadline W := by
  refine ⟨fun fuel n out k hs hpos => ?_, fun fuel hs k hk => ?_⟩
  · cases fuel with
    | zero => cases hs
    | succ fuel =>
      obtain ⟨n', out', hle, hs'⟩ := selectLoop_ends fuel hn h he
      rw [hs'] at hs
      cases hs
      omega
  · cases fuel with
    | zero => omega
    | succ fuel =>
      obtain ⟨n', out', -, hs'⟩ := selectLoop_ends fuel hn h he
      rw [hs'] at hs
      cases hs

/-- The ready descriptors of what the second pass looks at. -/
theorem second_ready (hn : nfds ≤ 1024) (h : ¬AnyReady (W 0) nfds s) (hfd : fd < nfds) (w : World) :
    readyIn w (pass (W 0) nfds s).2 fd = (isset fd s.rfds && isset fd s.wfds && writeReady w fd) := by
  obtain ⟨hr, hw⟩ := second_pass hn h hfd
  unfold readyIn
  rw [hr, hw, Bool.false_and, Bool.false_or]

/-- **The call that returns in its second pass.** -/
theorem judgesLoop_second (hn : nfds ≤ 1024) (h : ¬AnyReady (W 0) nfds s) (he : ends (W 0) deadline = false)
    (h1 : AnyReady (W 1) nfds (pass (W 0) nfds s).2) :
    JudgesLoop nfds s deadline W ↔ ∀ fd < nfds, (isset fd s.rfds && readReady (W 1) fd) = false ∧
      (isset fd s.wfds = true → writeReady (W 1) fd = true → isset fd s.rfds = true) := by
  have hloop : ∀ fuel, selectLoop W nfds deadline (fuel + 2) 0 s = _ := fun fuel =>
    (selectLoop_sleeps hn h he).trans (selectLoop_ready hn h1)
  have hbits : ∀ fd < nfds, isset fd (pass (W 1) nfds (pass (W 0) nfds s).2).2.rfds = false ∧
      isset fd (pass (W 1) nfds (pass (W 0) nfds s).2).2.wfds =
        (isset fd s.rfds && isset fd s.wfds && writeReady (W 1) fd) := by
    intro fd hfd
    obtain ⟨hr, hw⟩ := (pass_spec (W 1) (pass (W 0) nfds s).2 nfds hn).1 fd (by omega)
    obtain ⟨hr', hw'⟩ := second_pass hn h hfd
    have hge : ¬nfds ≤ fd := by omega
    rw [hr, hw, hr', hw', decide_eq_false hge, Bool.or_false, Bool.or_false, Bool.or_false]
    exact ⟨rfl, rfl⟩
  have hpos : (0 : Int) < numReady (W 1) nfds (pass (W 0) nfds s).2 := Int.natCast_pos.2 (numReady_pos.2 h1)
  constructor
  · intro hj fd hfd
    obtain ⟨hr, hw⟩ := (hj.exact 2 _ _ 1 (hloop 0) hpos).1 fd hfd
    rw [(hbits fd hfd).1] at hr
    rw [(hbits fd hfd).2] at hw
    refine ⟨hr.symm, fun hset hopen => ?_⟩
    rw [hset, hopen, Bool.and_true, Bool.and_true, Bool.and_true] at hw
    exact hw
  · refine fun hall => ⟨fun fuel n out k hs _ => ?_, fun fuel hs k hk fd hfd => ?_⟩
    · match fuel, hs with
      | 1, hs =>
        rw [selectLoop_sleeps hn h he] at hs
        cases hs
      | fuel + 2, hs =>
        rw [hloop fuel] at hs
        cases hs
        have hwrite : ∀ fd < nfds, (isset fd s.rfds && isset fd s.wfds && writeReady (W 1) fd) =
            (isset fd s.wfds && writeReady (W 1) fd) := by
          intro fd hfd
          have := (hall fd hfd).2
          cases hset : isset fd s.wfds with
          | false => rw [Bool.and_false]
          | true =>
            cases hopen : writeReady (W 1) fd with
            | false => rw [Bool.and_false, Bool.and_false]
            | true => rw [this hset hopen]; rfl
        refine ⟨fun fd hfd => ?_, ?_⟩
        · rw [(hbits fd hfd).1, (hbits fd hfd).2, (hall fd hfd).1, hwrite fd hfd]
          exact ⟨rfl, rfl⟩
        · unfold numReady
          congr 2
          · refine List.countP_congr fun fd hfd => ?_
            rw [(second_pass hn h (List.mem_range.1 hfd)).1, (hall fd (List.mem_range.1 hfd)).1, Bool.false_and]
          · refine List.countP_congr fun fd hfd => ?_
            rw [(second_pass hn h (List.mem_range.1 hfd)).2, hwrite fd (List.mem_range.1 hfd)]
    · match fuel, hs with
      | 1, _ =>
        obtain rfl : k = 0 := by omega
        exact not_anyReady.1 h fd hfd
      | fuel + 2, hs =>
        rw [hloop fuel] at hs
        cases hs

/-- **The call that finds nothing in its second pass** has nothing left to look at. -/
theorem judgesLoop_later (hn : nfds ≤ 1024) (h : ¬AnyReady (W 0) nfds s) (he : ends (W 0) deadline = false)
    (h1 : ¬AnyReady (W 1) nfds (pass (W 0) nfds s).2) :
    JudgesLoop nfds s deadline W ↔
      ∀ k, 1 ≤ k → (∀ j, 1 ≤ j → j ≤ k → ends (W j) deadline = false) → ¬AnyReady (W k) nfds s := by
  have hblank : Blank nfds (pass (W 1) nfds (pass (W 0) nfds s).2).2 := by
    intro fd hfd
    obtain ⟨hr, hw⟩ := (pass_spec (W 1) (pass (W 0) nfds s).2 nfds hn).1 fd (by omega)
    obtain ⟨hr', hw'⟩ := second_pass hn h hfd
    have hno := not_anyReady.1 h1 fd hfd
    rw [second_ready hn h hfd] at hno
    have hge : ¬nfds ≤ fd := by omega
    rw [hr, hw, hr', hw', decide_eq_false hge, Bool.or_false, Bool.or_false, Bool.or_false]
    exact ⟨rfl, hno⟩
  -- what the loop has done after `fuel` passes
  have hloop : ∀ fuel, (∀ n out j, selectLoop W nfds deadline fuel 0 s = some (n, out, j) → n ≤ 0) ∧
      (selectLoop W nfds deadline fuel 0 s = none ↔ ∀ j, 1 ≤ j → j < fuel → ends (W j) deadline = false) := by
    intro fuel
    match fuel with
    | 0 => exact ⟨fun n out j hs => (by cases hs), iff_of_true rfl fun j _ hj => (by omega)⟩
    | 1 =>
      rw [selectLoop_sleeps hn h he]
      exact ⟨fun n out j hs => (by cases hs), iff_of_true rfl fun j _ hj => (by omega)⟩
    | fuel + 2 =>
      rw [selectLoop_sleeps hn h he]
      cases he1 : ends (W 1) deadline with
      | true =>
        obtain ⟨n, out, hle, hs⟩ := selectLoop_ends fuel hn h1 he1
        rw [hs]
        refine ⟨fun n' out' j heq => ?_, iff_of_false (fun heq => by cases heq) fun hall => ?_⟩
        · cases heq
          exact hle
        · have := hall 1 (Nat.le_refl 1) (by omega)
          rw [he1] at this
          cases this
      | false =>
        rw [selectLoop_sleeps hn h1 he1]
        obtain ⟨hle, hnone⟩ := Blank.loop W deadline hn fuel 2 hblank
        refine ⟨hle, hnone.trans ⟨fun hall j hj hj' => ?_, fun hall j hj hj' => hall j (by omega) (by omega)⟩⟩
        by_cases hone : j = 1
        · rw [hone]
          exact he1
        · exact hall j (by omega) (by omega)
  constructor
  · intro hj k hk hends
    exact not_anyReady.2 (hj.awake (k + 1) ((hloop (k + 1)).2.2 fun j h1 h2 => hends j h1 (by omega)) k (by omega))
  · refine fun hall => ⟨fun fuel n out k hs hpos => ?_, fun fuel hs k hk fd hfd => ?_⟩
    · have := (hloop fuel).1 n out k hs
      omega
    · by_cases hk0 : k = 0
      · rw [hk0]
        exact not_anyReady.1 h fd hfd
      · have hends := (hloop fuel).2.1 hs
        exact not_anyReady.1 (hall k (by omega) fun j h1 h2 => hends j h1 (by omega)) fd hfd

theorem judgesLoop_iff (hn : nfds ≤ 1024) : JudgesLoop nfds s deadline W ↔ Seen nfds s deadline W := by
  unfold Seen
  by_cases h : AnyReady (W 0) nfds s
  · rw [judgesLoop_first hn h]
    exact ⟨fun hopen => ⟨fun _ => hopen, fun hno => absurd h hno⟩, fun hseen => hseen.1 h⟩
  have hsecond : AnyReady (W 1) nfds (pass (W 0) nfds s).2 ↔
      ∃ fd < nfds, (isset fd s.rfds && isset fd s.wfds && writeReady (W 1) fd) = true := by
    unfold AnyReady
    exact exists_congr fun fd => and_congr_right fun hfd => by rw [second_ready hn h hfd]
  cases he : ends (W 0) deadline with
  | true => exact iff_of_true (judgesLoop_ended hn h he) ⟨fun hyes => absurd hyes h, fun _ hf => by cases hf⟩
  | false =>
    by_cases h1 : AnyReady (W 1) nfds (pass (W 0) nfds s).2
    · rw [judgesLoop_second hn h he h1]
      refine ⟨fun hall => ⟨fun hyes => absurd hyes h, fun _ _ => ⟨fun _ => hall, fun hno => ?_⟩⟩,
        fun hseen => (hseen.2 h rfl).1 (hsecond.1 h1)⟩
      obtain ⟨fd, hfd, hyes⟩ := hsecond.1 h1
      rw [hno fd hfd] at hyes
      cases hyes
    · rw [judgesLoop_later hn h he h1]
      have hno : ∀ fd < nfds, (isset fd s.rfds && isset fd s.wfds && writeReady (W 1) fd) = false := by
        intro fd hfd
        rw [← Bool.not_eq_true]
        exact fun hyes => h1 (hsecond.2 ⟨fd, hfd, hyes⟩)
      exact ⟨fun hall => ⟨fun hyes => absurd hyes h, fun _ _ => ⟨fun hyes => absurd (hsecond.2 hyes) h1, fun _ => hall⟩⟩,
        fun hseen => (hseen.2 h rfl).2 hno⟩

/-- **`select` judges the sets it was given exactly when** it is called with a wrong `nfds`, or the condition holds. -/
theorem judges_iff (nfds : Int) (s : Sets) (timeout : Option (Int × Int)) (jiffies : Nat) (W : Nat → World) :
    Judges nfds s timeout jiffies W ↔
      nfds < 0 ∨ 1024 < nfds ∨ Seen nfds.toNat s (deadlineOf jiffies timeout) W := by
  by_cases hrange : nfds < 0 ∨ 1024 < nfds
  · have hret : ∀ fuel, sysSelect nfds s timeout jiffies W fuel = some (-einval, s, 0) := fun fuel => if_pos hrange
    refine iff_of_true ⟨fun fuel n out k hs hpos => ?_, fun fuel hs => ?_⟩ (or_assoc.1 (.inl hrange))
    · rw [hret fuel] at hs
      cases hs
      cases hpos
    · rw [hret fuel] at hs
      cases hs
  · have hret : ∀ fuel, sysSelect nfds s timeout jiffies W fuel =
        selectLoop W nfds.toNat (deadlineOf jiffies timeout) fuel 0 s := fun fuel => if_neg hrange
    have hlt : ∀ fd : Nat, (fd : Int) < nfds ↔ fd < nfds.toNat := fun fd => by omega
    have hloop : Judges nfds s timeout jiffies W ↔ JudgesLoop nfds.toNat s (deadlineOf jiffies timeout) W := by
      constructor
      · rintro ⟨hexact, hawake⟩
        simp only [hret, hlt] at hexact hawake
        exact ⟨hexact, hawake⟩
      · rintro ⟨hexact, hawake⟩
        refine ⟨?_, ?_⟩
        · simp only [hret, hlt]
          exact hexact
        · simp only [hret, hlt]
          exact hawake
    rw [hloop, judgesLoop_iff (by omega), ← or_assoc]
    exact (or_iff_right hrange).symm

/-- Descriptor 0 is closed, and 1 is open on a file without `poll`. -/
def zeroClosed : World where
  file fd := if fd = 1 then some ⟨none⟩ else none
  jiffies := 0
  signal := false

/-- The set of the descriptors 0 and 1, to be read, and of 0, to be written. -/
def zeroInBoth : Sets := ⟨some fun i => if i = 0 then 3#64 else 0#64, some fun i => if i = 0 then 1#64 else 0#64⟩

/-- **A closed descriptor is returned as writable** when it is in both sets. -/
theorem not_judges_zeroClosed : ¬Judges 2 zeroInBoth none 0 fun _ => zeroClosed := by
  intro h
  have hout : ∃ out, sysSelect 2 zeroInBoth none 0 (fun _ => zeroClosed) 1 = some (1, out, 0) ∧
      isset 0 out.wfds = true := ⟨_, rfl, by decide +kernel⟩
  obtain ⟨out, hret, hset⟩ := hout
  have := ((h.exact 1 1 out 0 hret (by decide)).1 0 (by decide)).2
  rw [hset] at this
  revert this
  decide +kernel

end Select
end Pico
