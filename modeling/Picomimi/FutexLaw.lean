import Picomimi.FutexRun
/-!
# FutexLaw — what `FUTEX_WAKE` and `FUTEX_REQUEUE` do, called alone

A call is run to its end (`finish`), nobody else in the lists.  Both loops compare what they have woken with `(int)val`, so
a count from `2 ^ 31` on wakes nobody; `FUTEX_REQUEUE` puts a waiter at the front of the list it is walking when both
addresses have one bucket, and for one address meets it again if it walks from the head still.  A waiter that was woken
is off the list, but its loop asks for the word alone.  `lawful_iff` says when all goes well.
-/
namespace Pico
namespace Futex

open Lib Lib.Slist

/-- What a task sees at a turn. -/
structure View where
  mem : Nat → Nat
  signal : Bool
  jiffies : Nat

/-- The call a task is in, run to its end, from the turn `k` on; no result if it has not ended in `fuel` turns. -/
def finish (t : Nat) (view : Nat → View) : Nat → Nat → System → Option (Int × System)
  | 0, _, _ => none
  | fuel + 1, k, s =>
    match s.pcs[t]? with
    | none => none
    | some (.user ret) => some (ret, s)
    | some p =>
      (turn { s with mem := (view k).mem } t (view k).signal (view k).jiffies p).bind (finish t view fuel (k + 1))

/-- The two operations; `FUTEX_PRIVATE_FLAG` and `FUTEX_CLOCK_RT` may be set in `op`. -/
inductive Op where
  | wake
  | requeue (uaddr2 : Nat)

def Op.cmd : Op → Nat
  | .wake => futexWake
  | .requeue _ => futexRequeue

def Op.uaddr2 : Op → Nat
  | .wake => 0
  | .requeue uaddr2 => uaddr2

def opOf (cmd : Nat) (privateFlag clockRt : Bool) : Nat :=
  cmd + (if privateFlag then 128 else 0) + (if clockRt then 256 else 0)

/-- The call of a task, and what it sees. -/
structure Call where
  t : Nat
  op : Op
  privateFlag : Bool
  clockRt : Bool
  uaddr : Nat
  val : UInt32

def enter (s : System) (c : Call) : System :=
  sysFutex s c.t c.uaddr (opOf c.op.cmd c.privateFlag c.clockRt) c.val.toNat none c.op.uaddr2 0

/-- The waiter's address is `uaddr`. -/
def waitsOn (s : System) (uaddr w : Nat) : Bool := (s.waiters w).uaddr = uaddr

/-- The waiters on `uaddr`, in the order of their bucket. -/
def waitersOn (s : System) (L : Nat → List Nat) (uaddr : Nat) : List Nat :=
  (L (futexHashKey uaddr)).filter (waitsOn s uaddr)

/-- **It ends**, with `ret`, in the state `u`. -/
def Ends (t : Nat) (view : Nat → View) (k : Nat) (s : System) (ret : Int) (u : System) : Prop :=
  ∃ n, ∀ fuel, n ≤ fuel → finish t view fuel k s = some (ret, u)

/-- The first `n` waiters are taken out of the buckets, and for `FUTEX_REQUEUE` the others are moved. -/
def Moved (s : System) (L : Nat → List Nat) (c : Call) (n : Nat) (u : System) (L' : Nat → List Nat) : Prop :=
  let ws := waitersOn s L c.uaddr
  match c.op with
  | .wake => (∀ b w, w ∈ L' b ↔ w ∈ L b ∧ w ∉ ws.take n) ∧ u.waiters = s.waiters
  | .requeue uaddr2 =>
    (∀ b w, w ∈ L' b ↔ (w ∈ L b ∧ w ∉ ws) ∨ (w ∈ ws.drop n ∧ b = futexHashKey uaddr2)) ∧
      ∀ w, u.waiters w = if w ∈ ws.drop n then { s.waiters w with uaddr := uaddr2 } else s.waiters w

/-- **The law of the two operations**: the call ends, returns the smaller of `val` and the number of waiters, and takes
out as many; every other waiter is in the table once, moved if it is to be; and a woken task returns from `FUTEX_WAIT`,
whatever it sees. -/
def Lawful (s : System) (L : Nat → List Nat) (c : Call) (view : Nat → Nat → View) : Prop :=
  ∃ u L', Ends c.t (view c.t) 0 (enter s c) (min c.val.toNat (waitersOn s L c.uaddr).length : Nat) u ∧
    u.store.Family L' ∧ Moved s L c c.val.toNat u L' ∧
    ∀ w ∈ (waitersOn s L c.uaddr).take c.val.toNat, ∀ uaddr val slot deadline,
      s.pcs[w]? = some (.waiting uaddr val slot deadline) → ∃ ret v, Ends w (view w) 0 u ret v

/-- **The call may be made**: the addresses are not NULL, `val` is not negative as an `int` or there is nobody to wake, and
a requeue to the same address comes by another waiter, or the end, before the first one it has to move. -/
def CallOk (s : System) (L : Nat → List Nat) (c : Call) : Prop :=
  c.uaddr ≠ 0 ∧ (c.val.toNat < 2147483648 ∨ waitersOn s L c.uaddr = []) ∧
    match c.op with
    | .wake => True
    | .requeue uaddr2 => uaddr2 ≠ 0 ∧ (uaddr2 = c.uaddr →
        ((L (futexHashKey c.uaddr)).takeWhile (waitsOn s c.uaddr)).length ≤ c.val.toNat)

/-- **What a woken waiter needs**: at one of its turns it sees the word changed, a signal, or its deadline passed. -/
def Leaves (s : System) (view : Nat → View) : Pc → Prop
  | .waiting uaddr val _ deadline =>
    ∃ k, (leaves { s with mem := (view k).mem } uaddr val deadline (view k).signal (view k).jiffies).isSome = true
  | _ => True

variable {s u : System} {L L' : Nat → List Nat} {c : Call} {t k n fuel slot uaddr uaddr2 val woken deadline : Nat}
  {view : Nat → View} {ret : Int} {p : Pc}

/-! ## To the end -/

theorem finish_user (hp : s.pcs[t]? = some (.user ret)) : finish t view (fuel + 1) k s = some (ret, s) := by
  simp only [finish, hp]

theorem finish_turn (hp : s.pcs[t]? = some p) (hu : ∀ ret, p ≠ .user ret) :
    finish t view (fuel + 1) k s =
      (turn { s with mem := (view k).mem } t (view k).signal (view k).jiffies p).bind (finish t view fuel (k + 1)) := by
  simp only [finish, hp]

theorem Ends.user (hp : s.pcs[t]? = some (.user ret)) : Ends t view k s ret s :=
  ⟨1, fun fuel hf => by
    obtain ⟨m, rfl⟩ : ∃ m, fuel = m + 1 := ⟨fuel - 1, by omega⟩
    exact finish_user hp⟩

theorem Ends.turn {v : System} (hp : s.pcs[t]? = some p) (hu : ∀ ret, p ≠ .user ret)
    (hs : Futex.turn { s with mem := (view k).mem } t (view k).signal (view k).jiffies p = some v)
    (h : Ends t view (k + 1) v ret u) : Ends t view k s ret u := by
  obtain ⟨n, hn⟩ := h
  refine ⟨n + 1, fun fuel hf => ?_⟩
  obtain ⟨m, rfl⟩ : ∃ m, fuel = m + 1 := ⟨fuel - 1, by omega⟩
  rw [finish_turn hp hu, hs]
  exact hn m (by omega)

/-- **A call ends in one way.** -/
theorem Ends.unique {ret' : Int} {u' : System} (h : Ends t view k s ret u) (h' : Ends t view k s ret' u') :
    ret = ret' ∧ u = u' := by
  obtain ⟨n, hn⟩ := h
  obtain ⟨n', hn'⟩ := h'
  have heq := (hn (n + n') (by omega)).symm.trans (hn' (n + n') (by omega))
  cases heq
  exact ⟨rfl, rfl⟩

/-- The end of a call: the lists, the others' places. -/
structure Done (t : Nat) (view : Nat → View) (k : Nat) (s : System) (ret : Int) (u : System) (L' : Nat → List Nat)
    (table : Nat → Nat → Prop) : Prop where
  ends : Ends t view k s ret u
  fam : u.store.Family L'
  table : ∀ b w, w ∈ L' b ↔ table b w
  pcs : ∀ j, j ≠ t → u.pcs[j]? = s.pcs[j]?

/-- A turn that is not the last. -/
theorem Done.turn {v : System} {table table' : Nat → Nat → Prop} (h : Done t view (k + 1) v ret u L' table)
    (hp : s.pcs[t]? = some p) (hu : ∀ ret, p ≠ .user ret)
    (hs : Futex.turn { s with mem := (view k).mem } t (view k).signal (view k).jiffies p = some v)
    (hpcs : ∃ p', v.pcs = s.pcs.set t p') (ht : ∀ b w, table b w ↔ table' b w) :
    Done t view k s ret u L' table' := by
  refine ⟨h.ends.turn hp hu hs, h.fam, fun b w => (h.table b w).trans (ht b w), fun j hj => ?_⟩
  obtain ⟨p', hp'⟩ := hpcs
  rw [h.pcs j hj, hp', List.getElem?_set_ne (Ne.symm hj)]

/-- The last turn. -/
theorem Done.last {v : System} (hF : v.store.Family L) (hp : s.pcs[t]? = some p) (hu : ∀ ret, p ≠ .user ret)
    (hs : Futex.turn { s with mem := (view k).mem } t (view k).signal (view k).jiffies p = some v)
    (hv : v.pcs = s.pcs.set t (.user ret)) : Done t view k s ret v L fun b w => w ∈ L b := by
  have hlt : t < s.pcs.length := (List.getElem?_eq_some_iff.1 hp).1
  refine ⟨Ends.turn hp hu hs (Ends.user ?_), hF, fun _ _ => Iff.rfl, fun j hj => ?_⟩
  · rw [hv]
    exact List.getElem?_set_self hlt
  · rw [hv, List.getElem?_set_ne (Ne.symm hj)]

theorem getElem?_set (hp : s.pcs[t]? = some p) (p' : Pc) : (s.pcs.set t p')[t]? = some p' :=
  List.getElem?_set_self (List.getElem?_eq_some_iff.1 hp).1

/-! ## The loop of `FUTEX_WAKE` -/

/-- **`FUTEX_WAKE`'s loop** takes out the first waiters it comes by; the induction is on what it has still to walk. -/
theorem wake_done (view : Nat → View) (slot uaddr val : Nat) :
    ∀ (post pre : List Nat) {s : System} {L : Nat → List Nat} {k woken : Nat}, s.store.Family L →
    L slot = pre ++ post → s.pcs[t]? = some (.wake uaddr val woken (locAfter slot pre)) →
    ∃ u L', Done t view k s (woken + ((post.filter (waitsOn s uaddr)).take ((int32 val).toNat - woken)).length : Nat) u L'
        (fun b w => w ∈ L b ∧ w ∉ (post.filter (waitsOn s uaddr)).take ((int32 val).toNat - woken)) ∧
      u.waiters = s.waiters
  | [], pre, s, L, k, woken, hF, hL, hp => by
    have hread : s.store.read (locAfter slot pre) = none := hF.read_locAfter hL
    have hs : Futex.turn { s with mem := (view k).mem } t (view k).signal (view k).jiffies
        (.wake uaddr val woken (locAfter slot pre)) =
        some { s with mem := (view k).mem, pcs := s.pcs.set t (.user woken) } := by
      simp only [Futex.turn, wakeTurn, hread]
    have hd := Done.last (v := { s with mem := (view k).mem, pcs := s.pcs.set t (.user woken) }) hF hp
      (fun ret he => by cases he) hs rfl
    refine ⟨_, L, ⟨?_, hd.fam, fun b w => ?_, hd.pcs⟩, rfl⟩
    · rw [List.filter_nil, List.take_nil]
      exact hd.ends
    · simp
  | x :: post, pre, s, L, k, woken, hF, hL, hp => by
    have hread : s.store.read (locAfter slot pre) = some x := hF.read_locAfter hL
    by_cases hval : int32 val ≤ woken
    · have hs : Futex.turn { s with mem := (view k).mem } t (view k).signal (view k).jiffies
          (.wake uaddr val woken (locAfter slot pre)) =
          some { s with mem := (view k).mem, pcs := s.pcs.set t (.user woken) } := by
        simp only [Futex.turn, wakeTurn, hread, if_pos hval]
      have hd := Done.last (v := { s with mem := (view k).mem, pcs := s.pcs.set t (.user woken) }) hF hp
        (fun ret he => by cases he) hs rfl
      have hzero : (int32 val).toNat - woken = 0 := by omega
      refine ⟨_, L, ⟨?_, hd.fam, fun b w => ?_, hd.pcs⟩, rfl⟩
      · rw [hzero, List.take_zero]
        exact hd.ends
      · simp [hzero]
    by_cases hx : (s.waiters x).uaddr = uaddr
    · have hwait : waitsOn s uaddr x = true := decide_eq_true hx
      have hpos : (int32 val).toNat - woken = (int32 val).toNat - (woken + 1) + 1 := by omega
      have hF' := (hF.remove hL).setNext (hF.not_mem_remove hL) none
      obtain ⟨u, L', hd, hw⟩ := wake_done view slot uaddr val post pre (k := k + 1)
        (s := { s with
          mem := (view k).mem
          store := (s.store.write (locAfter slot pre) (s.store.next x)).write (.next x) none
          pcs := s.pcs.set t (.wake uaddr val (woken + 1) (locAfter slot pre)) })
        hF' (Function.update_self ..) (getElem?_set hp _)
      refine ⟨u, L', ?_, hw⟩
      rw [List.filter_cons_of_pos hwait, hpos, List.take_succ_cons, List.length_cons]
      have hret : woken + 1 + ((post.filter (waitsOn s uaddr)).take ((int32 val).toNat - (woken + 1))).length =
          woken + (((post.filter (waitsOn s uaddr)).take ((int32 val).toNat - (woken + 1))).length + 1) := by omega
      rw [← hret]
      refine hd.turn hp (fun ret he => by cases he) ?_ ⟨_, rfl⟩ fun b w => ?_
      · simp only [Futex.turn, wakeTurn, hread, if_neg hval, if_pos hx]
      · rw [hF.mem_remove hL, List.mem_cons, not_or, and_assoc]
        rfl
    · have hwait : ¬waitsOn s uaddr x = true := fun h => hx (of_decide_eq_true h)
      obtain ⟨u, L', hd, hw⟩ := wake_done view slot uaddr val post (pre ++ [x]) (k := k + 1)
        (s := { s with mem := (view k).mem, pcs := s.pcs.set t (.wake uaddr val woken (.next x)) })
        hF (by rw [hL, List.append_assoc]; rfl) (by rw [locAfter_concat]; exact getElem?_set hp _)
      refine ⟨u, L', ?_, hw⟩
      rw [List.filter_cons_of_neg hwait]
      refine hd.turn hp (fun ret he => by cases he) ?_ ⟨_, rfl⟩ fun b w => Iff.rfl
      simp only [Futex.turn, wakeTurn, hread, if_neg hval, if_neg hx]

/-! ## The loop of `FUTEX_REQUEUE` -/

/-- The loop goes by a record of another address. -/
theorem requeueTurn_pass {v : System} {pp : Loc Nat Nat} {w : Nat} (hread : v.store.read pp = some w)
    (hw : (v.waiters w).uaddr ≠ uaddr) : requeueTurn v t uaddr val uaddr2 woken pp =
      { v with pcs := v.pcs.set t (.requeue uaddr val uaddr2 woken (.next w)) } := by
  simp only [requeueTurn, hread, if_pos hw]

/-- The loop wakes a waiter. -/
theorem requeueTurn_wake (uaddr2 : Nat) {v : System} {pp : Loc Nat Nat} {w : Nat} (hread : v.store.read pp = some w)
    (hw : (v.waiters w).uaddr = uaddr) (hval : woken < int32 val) : requeueTurn v t uaddr val uaddr2 woken pp =
      { v with
        store := (v.store.write pp (v.store.next w)).write (.next w) none
        pcs := v.pcs.set t (.requeue uaddr val uaddr2 (woken + 1) pp) } := by
  simp only [requeueTurn, hread, hw, ne_eq, not_true_eq_false, if_false, if_pos hval]

/-- The buckets and the records after a waiter is moved. -/
def moveTo (s : System) (uaddr2 : Nat) (pp : Loc Nat Nat) (w : Nat) : System :=
  let store := s.store.write pp (s.store.next w)
  { s with
    store := (store.write (.next w) (store.head (futexHashKey uaddr2))).write (.head (futexHashKey uaddr2)) (some w)
    waiters := Function.update s.waiters w { s.waiters w with uaddr := uaddr2 } }

@[simp] theorem moveTo_waiters_self (s : System) (uaddr2 : Nat) (pp : Loc Nat Nat) (w : Nat) :
    (moveTo s uaddr2 pp w).waiters w = { s.waiters w with uaddr := uaddr2 } := Function.update_self _ _ _

theorem moveTo_waiters_of_ne (pp : Loc Nat Nat) {w x : Nat} (h : x ≠ w) :
    (moveTo s uaddr2 pp w).waiters x = s.waiters x := Function.update_of_ne h _ _

/-- The loop moves a waiter. -/
theorem requeueTurn_move (uaddr2 : Nat) {v : System} {pp : Loc Nat Nat} {w : Nat} (hread : v.store.read pp = some w)
    (hw : (v.waiters w).uaddr = uaddr) (hval : ¬(woken : Int) < int32 val) : requeueTurn v t uaddr val uaddr2 woken pp =
      { moveTo v uaddr2 pp w with pcs := v.pcs.set t (.requeue uaddr val uaddr2 woken pp) } := by
  simp only [requeueTurn, hread, hw, ne_eq, not_true_eq_false, if_false, if_neg hval, moveTo]

/-- The lists after a waiter is moved, `rest` being what stays of its bucket. -/
def movedLists (L : Nat → List Nat) (slot : Nat) (rest : List Nat) (slot2 w : Nat) : Nat → List Nat :=
  Function.update (Function.update L slot rest) slot2 (w :: Function.update L slot rest slot2)

/-- **What the buckets hold after a waiter is moved.** -/
theorem moveTo_family (uaddr2 : Nat) {pre post : List Nat} {w : Nat} (hF : s.store.Family L)
    (hL : L slot = pre ++ w :: post) : (moveTo s uaddr2 (locAfter slot pre) w).store.Family
      (movedLists L slot (pre ++ post) (futexHashKey uaddr2) w) := by
  have hnot := hF.not_mem_remove hL
  exact ((hF.remove hL).setNext hnot _).push hnot (Function.update_self _ _ _)

theorem mem_movedLists {pre post : List Nat} {w slot2 b x : Nat} (hF : s.store.Family L)
    (hL : L slot = pre ++ w :: post) :
    x ∈ movedLists L slot (pre ++ post) slot2 w b ↔ (b = slot2 ∧ x = w) ∨ (x ∈ L b ∧ x ≠ w) := by
  rw [movedLists, mem_push, hF.mem_remove hL]

/-- **Where the walk stands after a waiter is moved**: before the same records, and past the moved one if that is in the
same bucket. -/
theorem movedLists_cursor (L : Nat → List Nat) (slot slot2 w : Nat) (pre post : List Nat)
    (hpre : slot2 = slot → pre ≠ []) :
    ∃ pre', movedLists L slot (pre ++ post) slot2 w slot = pre' ++ post ∧ locAfter slot pre' = locAfter slot pre ∧
      (slot2 = slot → pre' ≠ []) := by
  by_cases hs : slot2 = slot
  · subst hs
    refine ⟨w :: pre, ?_, locAfter_cons _ _ (hpre rfl), fun _ => List.cons_ne_nil _ _⟩
    rw [movedLists, Function.update_self, Function.update_self]
    rfl
  · refine ⟨pre, ?_, rfl, fun h => absurd h hs⟩
    rw [movedLists, Function.update_of_ne (Ne.symm hs), Function.update_self]

/-- The moved waiter comes first in its own bucket. -/
theorem movedLists_self (L : Nat → List Nat) (slot w : Nat) (rest : List Nat) :
    movedLists L slot rest slot w slot = w :: rest := by
  rw [movedLists, Function.update_self, Function.update_self]

/-- The loop goes by a record: one turn. -/
theorem Done.pass {pp : Loc Nat Nat} {w : Nat} {table : Nat → Nat → Prop}
    (h : Done t view (k + 1)
      { s with mem := (view k).mem, pcs := s.pcs.set t (.requeue uaddr val uaddr2 woken (.next w)) } ret u L' table)
    (hp : s.pcs[t]? = some (.requeue uaddr val uaddr2 woken pp)) (hread : s.store.read pp = some w)
    (hw : (s.waiters w).uaddr ≠ uaddr) : Done t view k s ret u L' table := by
  refine h.turn hp (fun ret he => by cases he) ?_ ⟨_, rfl⟩ fun _ _ => Iff.rfl
  exact congrArg some (requeueTurn_pass (v := { s with mem := (view k).mem }) hread hw)

/-- What the loop leaves, when `ws` are the waiters it still has to come by and `n` of them are to be woken. -/
structure Requeued (t : Nat) (view : Nat → View) (k : Nat) (s : System) (L : Nat → List Nat) (uaddr2 woken n : Nat)
    (ws : List Nat) (u : System) (L' : Nat → List Nat) : Prop where
  done : Done t view k s (woken + (ws.take n).length : Nat) u L'
    fun b w => (w ∈ L b ∧ w ∉ ws) ∨ (w ∈ ws.drop n ∧ b = futexHashKey uaddr2)
  waiters : ∀ w, u.waiters w = if w ∈ ws.drop n then { s.waiters w with uaddr := uaddr2 } else s.waiters w

/-- A turn that wakes a waiter. -/
theorem Requeued.wake {x n : Nat} {pre post ws : List Nat} (hF : s.store.Family L) (hL : L slot = pre ++ x :: post)
    (hp : s.pcs[t]? = some (.requeue uaddr val uaddr2 woken (locAfter slot pre))) (hx : (s.waiters x).uaddr = uaddr)
    (hval : woken < int32 val)
    (h : Requeued t view (k + 1)
      { s with
        mem := (view k).mem
        store := (s.store.write (locAfter slot pre) (s.store.next x)).write (.next x) none
        pcs := s.pcs.set t (.requeue uaddr val uaddr2 (woken + 1) (locAfter slot pre)) }
      (Function.update L slot (pre ++ post)) uaddr2 (woken + 1) n ws u L') :
    Requeued t view k s L uaddr2 woken (n + 1) (x :: ws) u L' where
  done := by
    have hread : s.store.read (locAfter slot pre) = some x := hF.read_locAfter hL
    have hret : woken + ((x :: ws).take (n + 1)).length = woken + 1 + (ws.take n).length := by
      rw [List.take_succ_cons, List.length_cons]
      omega
    rw [hret]
    refine h.done.turn hp (fun ret he => by cases he) ?_ ⟨_, rfl⟩ fun b w => ?_
    · exact congrArg some (requeueTurn_wake uaddr2 (v := { s with mem := (view k).mem }) hread hx hval)
    · rw [hF.mem_remove hL, List.mem_cons, not_or, and_assoc, List.drop_succ_cons]
  waiters := h.waiters

/-- A turn that moves a waiter. -/
theorem Requeued.move {x : Nat} {pre post ws : List Nat} (hF : s.store.Family L) (hL : L slot = pre ++ x :: post)
    (hp : s.pcs[t]? = some (.requeue uaddr val uaddr2 woken (locAfter slot pre))) (hx : (s.waiters x).uaddr = uaddr)
    (hval : ¬(woken : Int) < int32 val) (hws : x ∉ ws)
    (h : Requeued t view (k + 1)
      { moveTo { s with mem := (view k).mem } uaddr2 (locAfter slot pre) x with
        pcs := s.pcs.set t (.requeue uaddr val uaddr2 woken (locAfter slot pre)) }
      (movedLists L slot (pre ++ post) (futexHashKey uaddr2) x) uaddr2 woken 0 ws u L') :
    Requeued t view k s L uaddr2 woken 0 (x :: ws) u L' where
  done := by
    have hread : s.store.read (locAfter slot pre) = some x := hF.read_locAfter hL
    refine h.done.turn hp (fun ret he => by cases he) ?_ ⟨_, rfl⟩ fun b w => ?_
    · exact congrArg some (requeueTurn_move uaddr2 (v := { s with mem := (view k).mem }) hread hx hval)
    · rw [mem_movedLists hF hL, List.drop_zero, List.drop_zero, List.mem_cons]
      by_cases hwx : w = x
      · subst hwx
        simp [hws]
      · simp [hwx]
  waiters w := by
    rw [h.waiters w, List.drop_zero, List.drop_zero]
    show (if w ∈ ws then { (moveTo s uaddr2 (locAfter slot pre) x).waiters w with uaddr := uaddr2 }
      else (moveTo s uaddr2 (locAfter slot pre) x).waiters w) = _
    by_cases hwx : w = x
    · subst hwx
      rw [if_neg hws, moveTo_waiters_self, if_pos List.mem_cons_self]
    · rw [moveTo_waiters_of_ne _ hwx]
      simp [hwx]

/-- **`FUTEX_REQUEUE`'s loop** takes out the first waiters and moves the others; the induction is on what it has still to
walk. -/
theorem requeue_done (view : Nat → View) (hslot : futexHashKey uaddr = slot) (q : Nat → Bool) :
    ∀ (post pre : List Nat) {s : System} {L : Nat → List Nat} {k woken : Nat},
      s.store.Family L → L slot = pre ++ post → (∀ x ∈ post, waitsOn s uaddr x = q x) →
      s.pcs[t]? = some (.requeue uaddr val uaddr2 woken (locAfter slot pre)) →
      (uaddr2 = uaddr → pre ≠ [] ∨ (post.takeWhile q).length ≤ (int32 val).toNat - woken) →
      ∃ u L', Requeued t view k s L uaddr2 woken ((int32 val).toNat - woken) (post.filter q) u L'
  | [], pre, s, L, k, woken, hF, hL, _, hp, _ => by
    have hread : s.store.read (locAfter slot pre) = none := hF.read_locAfter hL
    have hs : Futex.turn { s with mem := (view k).mem } t (view k).signal (view k).jiffies
        (.requeue uaddr val uaddr2 woken (locAfter slot pre)) =
        some { s with mem := (view k).mem, pcs := s.pcs.set t (.user woken) } := by
      simp only [Futex.turn, requeueTurn, hread]
    have hd := Done.last (v := { s with mem := (view k).mem, pcs := s.pcs.set t (.user woken) }) hF hp
      (fun ret he => by cases he) hs rfl
    refine ⟨_, L, ⟨?_, hd.fam, fun b w => ?_, hd.pcs⟩, fun w => ?_⟩
    · rw [List.filter_nil, List.take_nil]
      exact hd.ends
    · simp
    · simp
  | x :: post, pre, s, L, k, woken, hF, hL, hq, hp, hok => by
    have hread : s.store.read (locAfter slot pre) = some x := hF.read_locAfter hL
    have hqpost : ∀ y ∈ post, waitsOn s uaddr y = q y := fun y hy => hq y (List.mem_cons_of_mem x hy)
    have hget : ∀ p' : Pc, (s.pcs.set t p')[t]? = some p' := getElem?_set hp
    by_cases hx : (s.waiters x).uaddr = uaddr
    swap
    · have hqx : ¬q x = true := by
        rw [← hq x List.mem_cons_self]
        exact fun h => hx (of_decide_eq_true h)
      obtain ⟨u, L', h⟩ := requeue_done view hslot q post (pre ++ [x]) (k := k + 1)
        (s := { s with mem := (view k).mem, pcs := s.pcs.set t (.requeue uaddr val uaddr2 woken (.next x)) })
        hF (by rw [hL, List.append_assoc]; rfl) hqpost (by rw [locAfter_concat]; exact hget _)
        fun _ => .inl (by simp)
      rw [List.filter_cons_of_neg hqx]
      exact ⟨u, L', h.done.pass hp hread hx, h.waiters⟩
    have hqx : q x = true := by
      rw [← hq x List.mem_cons_self]
      exact decide_eq_true hx
    rw [List.filter_cons_of_pos hqx]
    by_cases hval : (woken : Int) < int32 val
    · have hpos : (int32 val).toNat - woken = (int32 val).toNat - (woken + 1) + 1 := by omega
      obtain ⟨u, L', h⟩ := requeue_done view hslot q post pre (k := k + 1)
        (s := { s with
          mem := (view k).mem
          store := (s.store.write (locAfter slot pre) (s.store.next x)).write (.next x) none
          pcs := s.pcs.set t (.requeue uaddr val uaddr2 (woken + 1) (locAfter slot pre)) })
        ((hF.remove hL).setNext (hF.not_mem_remove hL) none) (Function.update_self ..) hqpost (hget _)
        fun he => (hok he).imp_right fun hlen => by
          rw [List.takeWhile_cons_of_pos hqx, List.length_cons] at hlen
          omega
      rw [hpos]
      exact ⟨u, L', h.wake hF hL hp hx hval⟩
    have hzero : (int32 val).toNat - woken = 0 := by omega
    have hnd : x ∉ post := by
      have := hF.nodup slot
      rw [hL] at this
      exact (List.nodup_cons.1 (List.nodup_append.1 this).2.1).1
    have hqm : ∀ y ∈ post, waitsOn (moveTo s uaddr2 (locAfter slot pre) x) uaddr y = q y := by
      intro y hy
      rw [← hqpost y hy, waitsOn, waitsOn, moveTo_waiters_of_ne _ fun (h : y = x) => hnd (h ▸ hy)]
    have hmoved : ∃ u L', Requeued t view (k + 1)
        { moveTo { s with mem := (view k).mem } uaddr2 (locAfter slot pre) x with
          pcs := s.pcs.set t (.requeue uaddr val uaddr2 woken (locAfter slot pre)) }
        (movedLists L slot (pre ++ post) (futexHashKey uaddr2) x) uaddr2 woken ((int32 val).toNat - woken)
        (post.filter q) u L' := by
      by_cases hpre : futexHashKey uaddr2 = slot → pre ≠ []
      · obtain ⟨pre', hL', hloc, hne⟩ := movedLists_cursor L slot (futexHashKey uaddr2) x pre post hpre
        exact requeue_done view hslot q post pre' (moveTo_family uaddr2 hF hL) hL' hqm (by rw [hloc]; exact hget _)
          fun he => .inl (hne (by rw [he, hslot]))
      · -- it is the next one again, and of another address
        obtain ⟨hs2, hnil⟩ := Classical.not_imp.1 hpre
        obtain rfl : pre = [] := Classical.not_not.1 hnil
        have hne : uaddr2 ≠ uaddr := fun he => by
          have hlen := (hok he).resolve_left fun h => h rfl
          rw [List.takeWhile_cons_of_pos hqx, List.length_cons] at hlen
          omega
        obtain ⟨u, L', h⟩ := requeue_done view hslot q post [x] (k := k + 1 + 1)
          (s := { moveTo s uaddr2 (locAfter slot []) x with
            mem := (view (k + 1)).mem
            pcs := (s.pcs.set t (.requeue uaddr val uaddr2 woken (.head slot))).set t
              (.requeue uaddr val uaddr2 woken (.next x)) })
          (moveTo_family uaddr2 hF hL) (by rw [hs2]; exact movedLists_self L slot x post) hqm
          (getElem?_set (s := { s with pcs := s.pcs.set t (.requeue uaddr val uaddr2 woken (.head slot)) }) (hget _) _)
          fun _ => .inl (List.cons_ne_nil _ _)
        refine ⟨u, L', h.done.pass (hget _) ?_ ?_, h.waiters⟩
        · rw [← hs2]
          exact Function.update_self _ _ _
        · show ((moveTo s uaddr2 (.head slot) x).waiters x).uaddr ≠ uaddr
          rw [moveTo_waiters_self]
          exact hne
    rw [hzero] at hmoved ⊢
    obtain ⟨u, L', h⟩ := hmoved
    exact ⟨u, L', h.move hF hL hp hx hval fun hmem => hnd (List.mem_filter.1 hmem).1⟩

/-- **`FUTEX_REQUEUE` to the same address never ends** when the first waiter it has to move is the first of the bucket: it
is put back where it was. -/
theorem requeue_stuck (view : Nat → View) (hslot : futexHashKey uaddr = slot) :
    ∀ (fuel : Nat) {s : System} {L : Nat → List Nat} {k woken : Nat}, s.store.Family L →
    s.pcs[t]? = some (.requeue uaddr val uaddr woken (.head slot)) →
    (int32 val).toNat - woken < ((L slot).takeWhile (waitsOn s uaddr)).length → finish t view fuel k s = none
  | 0, _, _, _, _, _, _, _ => rfl
  | fuel + 1, s, L, k, woken, hF, hp, hlen => by
    rw [finish_turn hp (fun ret he => by cases he)]
    obtain ⟨x, post, hL, hx⟩ : ∃ x post, L slot = x :: post ∧ waitsOn s uaddr x = true := by
      cases hL : L slot with
      | nil =>
        rw [hL] at hlen
        cases hlen
      | cons x post =>
        refine ⟨x, post, rfl, by_contra fun hx => ?_⟩
        rw [hL, List.takeWhile_cons_of_neg hx] at hlen
        cases hlen
    rw [hL, List.takeWhile_cons_of_pos hx, List.length_cons] at hlen
    have hL' : L slot = [] ++ x :: post := hL
    have hread : s.store.read (.head slot) = some x := hF.read_locAfter hL'
    have hxa : (s.waiters x).uaddr = uaddr := of_decide_eq_true hx
    by_cases hval : (woken : Int) < int32 val
    · have hturn := requeueTurn_wake uaddr (v := { s with mem := (view k).mem }) (t := t) hread hxa hval
      simp only [Futex.turn, hturn, Option.bind_some]
      refine requeue_stuck view hslot fuel (L := Function.update L slot ([] ++ post))
        ((hF.remove hL').setNext (hF.not_mem_remove hL') none) (getElem?_set hp _) ?_
      rw [Function.update_self]
      show (int32 val).toNat - (woken + 1) < (post.takeWhile (waitsOn s uaddr)).length
      omega
    · have hturn := requeueTurn_move uaddr (v := { s with mem := (view k).mem }) (t := t) hread hxa hval
      simp only [Futex.turn, hturn, Option.bind_some]
      refine requeue_stuck view hslot fuel (moveTo_family uaddr hF hL') (getElem?_set hp _) ?_
      rw [hslot, movedLists_self, List.takeWhile_cons_of_pos, List.length_cons]
      · omega
      · exact decide_eq_true (congrArg Waiter.uaddr (moveTo_waiters_self s uaddr (.head slot) x))

/-! ## A waiter by itself -/

/-- **The walk that takes the task's own record out ends.** -/
theorem unlink_ends : ∀ (post pre : List Nat) {s : System} {k : Nat} {p : Pc}, s.store.Family L → L slot = pre ++ post →
    s.pcs[t]? = some p → (∀ ret, p ≠ .user ret) →
    (∀ v signal jiffies, Futex.turn v t signal jiffies p = some (unlinkTurn v t slot (locAfter slot pre) ret)) →
    ∃ u, Ends t view k s ret u
  | [], pre, s, k, p, hF, hL, hp, hu, hturn => by
    have hread : s.store.read (locAfter slot pre) = none := hF.read_locAfter hL
    refine ⟨{ s with mem := (view k).mem, pcs := s.pcs.set t (.user ret) },
      Ends.turn hp hu ((hturn _ _ _).trans (congrArg some ?_)) (Ends.user (getElem?_set hp _))⟩
    simp only [unlinkTurn, hread]
  | x :: post, pre, s, k, p, hF, hL, hp, hu, hturn => by
    have hread : s.store.read (locAfter slot pre) = some x := hF.read_locAfter hL
    by_cases hx : x = t
    · refine ⟨{ s with
          mem := (view k).mem
          store := s.store.write (locAfter slot pre) (s.store.next x)
          pcs := s.pcs.set t (.user ret) },
        Ends.turn hp hu ((hturn _ _ _).trans (congrArg some ?_)) (Ends.user (getElem?_set hp _))⟩
      simp only [unlinkTurn, hread, if_pos hx]
    · obtain ⟨u, hu'⟩ := unlink_ends post (pre ++ [x]) (k := k + 1)
        (s := { s with mem := (view k).mem, pcs := s.pcs.set t (.unlink slot (.next x) ret) })
        (p := .unlink slot (.next x) ret) hF (by rw [hL, List.append_assoc]; rfl) (getElem?_set hp _)
        (fun r he => by cases he) fun v signal jiffies => by rw [locAfter_concat]; rfl
      refine ⟨u, hu'.turn hp hu ((hturn _ _ _).trans (congrArg some ?_))⟩
      simp only [unlinkTurn, hread, if_neg hx]

theorem waiting_ends : ∀ (n : Nat) {s : System} {k : Nat}, s.store.Family L →
    s.pcs[t]? = some (.waiting uaddr val slot deadline) →
    (leaves { s with mem := (view (k + n)).mem } uaddr val deadline (view (k + n)).signal (view (k + n)).jiffies).isSome =
      true → ∃ ret u, Ends t view k s ret u
  | n, s, k, hF, hp, hl => by
    cases hk : leaves { s with mem := (view k).mem } uaddr val deadline (view k).signal (view k).jiffies with
    | some ret =>
      obtain ⟨u, hu⟩ := unlink_ends (L := L) (L slot) [] (k := k + 1)
        (s := { s with mem := (view k).mem, pcs := s.pcs.set t (.leave slot ret) })
        hF rfl (getElem?_set hp _) (fun r he => by cases he) fun _ _ _ => rfl
      refine ⟨ret, u, hu.turn hp (fun r he => by cases he) ?_⟩
      simp only [Futex.turn, hk]
    | none =>
      cases n with
      | zero =>
        rw [Nat.add_zero, hk] at hl
        cases hl
      | succ n =>
        obtain ⟨ret, u, hu⟩ := waiting_ends n (s := { s with mem := (view k).mem }) (k := k + 1) hF hp
          (by rw [show k + 1 + n = k + (n + 1) by omega]; exact hl)
        refine ⟨ret, u, hu.turn hp (fun r he => by cases he) ?_⟩
        simp only [Futex.turn, hk]

theorem waiting_stuck (view : Nat → View) : ∀ (fuel : Nat) {s : System} {k : Nat},
    s.pcs[t]? = some (.waiting uaddr val slot deadline) →
    (∀ j, leaves { s with mem := (view (k + j)).mem } uaddr val deadline (view (k + j)).signal (view (k + j)).jiffies =
      none) → finish t view fuel k s = none
  | 0, _, _, _, _ => rfl
  | fuel + 1, s, k, hp, hl => by
    have hk := hl 0
    rw [Nat.add_zero] at hk
    rw [finish_turn hp (fun r he => by cases he)]
    simp only [Futex.turn, hk, Option.bind_some]
    refine waiting_stuck view fuel hp fun j => ?_
    rw [show k + 1 + j = k + (j + 1) by omega]
    exact hl (j + 1)

/-- **A waiter returns if and only if it leaves its loop.** -/
theorem waiting_iff (hF : u.store.Family L) (hp : u.pcs[t]? = some (.waiting uaddr val slot deadline)) (s : System) :
    (∃ ret v, Ends t view 0 u ret v) ↔ Leaves s view (.waiting uaddr val slot deadline) := by
  constructor
  · rintro ⟨ret, v, n, hn⟩
    by_contra hno
    have hnone := waiting_stuck view n hp fun j => by
      rw [Nat.zero_add, ← Option.not_isSome_iff_eq_none]
      exact fun h => hno ⟨j, h⟩
    rw [hn n (Nat.le_refl n)] at hnone
    cases hnone
  · rintro ⟨n, hn⟩
    refine waiting_ends n hF hp ?_
    rw [Nat.zero_add]
    exact hn

/-! ## The law -/

/-- The count that the loops compare with. -/
theorem int32_toNat (val : UInt32) :
    (int32 val.toNat).toNat = if val.toNat < 2147483648 then val.toNat else 0 := by
  have hlt := val.toNat_lt
  have hmod : (BitVec.ofNat 32 val.toNat).toNat = val.toNat := by
    rw [BitVec.toNat_ofNat]
    omega
  rw [int32, BitVec.toInt_eq_toNat_cond, hmod]
  split <;> split <;> omega

/-- The flags make no difference. -/
theorem opOf_cmd (op : Op) (f g : Bool) : opOf op.cmd f g ^^^ (opOf op.cmd f g &&& futexFlags) = op.cmd := by
  have hcmds : ∀ cmd ∈ [futexWake, futexRequeue], ∀ f g : Bool, opOf cmd f g ^^^ (opOf cmd f g &&& futexFlags) = cmd := by
    decide
  cases op with
  | wake => exact hcmds futexWake (by decide) f g
  | requeue _ => exact hcmds futexRequeue (by decide) f g

/-! ### The entry -/

theorem enter_refused (h0 : c.uaddr = 0) : enter s c = { s with pcs := s.pcs.set c.t (.user (-efault)) } := by
  simp only [enter, sysFutex, if_pos h0]

theorem enter_wake (hc : c.op = .wake) (h0 : c.uaddr ≠ 0) : enter s c =
    { s with pcs := s.pcs.set c.t (.wake c.uaddr c.val.toNat 0 (.head (futexHashKey c.uaddr))) } := by
  have hcmd := opOf_cmd c.op c.privateFlag c.clockRt
  rw [hc] at hcmd
  simp only [enter, sysFutex, hc, hcmd, if_neg h0]
  rfl

theorem enter_requeue_refused (hc : c.op = .requeue uaddr2) (h0 : c.uaddr ≠ 0) (h2 : uaddr2 = 0) :
    enter s c = { s with pcs := s.pcs.set c.t (.user (-efault)) } := by
  have hcmd := opOf_cmd c.op c.privateFlag c.clockRt
  rw [hc] at hcmd
  simp only [enter, sysFutex, hc, hcmd, if_neg h0]
  exact if_pos h2

theorem enter_requeue (hc : c.op = .requeue uaddr2) (h0 : c.uaddr ≠ 0) (h2 : uaddr2 ≠ 0) : enter s c =
    { s with pcs := s.pcs.set c.t (.requeue c.uaddr c.val.toNat uaddr2 0 (.head (futexHashKey c.uaddr))) } := by
  have hcmd := opOf_cmd c.op c.privateFlag c.clockRt
  rw [hc] at hcmd
  simp only [enter, sysFutex, hc, hcmd, if_neg h0]
  exact if_neg h2

/-- **The loop comes to an end**: neither address is NULL, and `FUTEX_REQUEUE` does not put a waiter where it will look
next. -/
def Passes (s : System) (L : Nat → List Nat) (c : Call) : Prop :=
  c.uaddr ≠ 0 ∧ match c.op with
  | .wake => True
  | .requeue uaddr2 => uaddr2 ≠ 0 ∧ (uaddr2 = c.uaddr →
      ((L (futexHashKey c.uaddr)).takeWhile (waitsOn s c.uaddr)).length ≤ (int32 c.val.toNat).toNat)

/-- **The call, by itself**: it ends, and the buckets are as they are to be, for the count it compares with. -/
theorem Passes.done (view : Nat → View) (h : Passes s L c) (hF : s.store.Family L) (ht : s.pcs[c.t]? = some (.user ret)) :
    ∃ u L', Ends c.t view 0 (enter s c) (((waitersOn s L c.uaddr).take (int32 c.val.toNat).toNat).length : Nat) u ∧
      u.store.Family L' ∧ Moved s L c (int32 c.val.toNat).toNat u L' ∧ ∀ j, j ≠ c.t → u.pcs[j]? = s.pcs[j]? := by
  obtain ⟨h0, hop⟩ := h
  have hset : ∀ p : Pc, (s.pcs.set c.t p)[c.t]? = some p := getElem?_set ht
  have hother : ∀ (p : Pc) j, j ≠ c.t → (s.pcs.set c.t p)[j]? = s.pcs[j]? :=
    fun p j hj => List.getElem?_set_ne (Ne.symm hj)
  cases hc : c.op with
  | wake =>
    rw [enter_wake hc h0]
    obtain ⟨u, L', hd, hw⟩ := wake_done view (futexHashKey c.uaddr) c.uaddr c.val.toNat (L _) [] (k := 0)
      (s := { s with pcs := s.pcs.set c.t (.wake c.uaddr c.val.toNat 0 (.head (futexHashKey c.uaddr))) })
      hF rfl (hset _)
    rw [Nat.sub_zero, Nat.zero_add] at hd
    refine ⟨u, L', hd.ends, hd.fam, ?_, fun j hj => (hd.pcs j hj).trans (hother _ j hj)⟩
    simp only [Moved, hc]
    exact ⟨hd.table, hw⟩
  | requeue uaddr2 =>
    rw [hc] at hop
    obtain ⟨h2, hsame⟩ := hop
    rw [enter_requeue hc h0 h2]
    obtain ⟨u, L', h⟩ := requeue_done view rfl (waitsOn s c.uaddr) (L _) [] (k := 0)
      (s := { s with pcs := s.pcs.set c.t (.requeue c.uaddr c.val.toNat uaddr2 0 (.head (futexHashKey c.uaddr))) })
      hF rfl (fun _ _ => rfl) (hset _) fun he => .inr (hsame he)
    obtain ⟨hd, hw⟩ := h
    rw [Nat.sub_zero, Nat.zero_add] at hd
    rw [Nat.sub_zero] at hw
    refine ⟨u, L', hd.ends, hd.fam, ?_, fun j hj => (hd.pcs j hj).trans (hother _ j hj)⟩
    simp only [Moved, hc]
    exact ⟨hd.table, hw⟩

/-- A call that is refused does not return a count. -/
theorem not_ends_refused (ht : s.pcs[t]? = some (.user ret)) {n : Nat} (h : Ends t view 0
    { s with pcs := s.pcs.set t (.user (-efault)) } n u) : False := by
  have heq := (h.unique (Ends.user (getElem?_set ht _))).1
  simp only [efault] at heq
  omega

/-- **A call that ends with a count** was not refused and did not go round for ever. -/
theorem passes_of_ends (hF : s.store.Family L) (ht : s.pcs[c.t]? = some (.user ret)) {n : Nat}
    (h : Ends c.t view 0 (enter s c) n u) : Passes s L c := by
  have h0 : c.uaddr ≠ 0 := fun h0 => by
    rw [enter_refused h0] at h
    exact not_ends_refused ht h
  refine ⟨h0, ?_⟩
  cases hc : c.op with
  | wake => trivial
  | requeue uaddr2 =>
    have h2 : uaddr2 ≠ 0 := fun h2 => by
      rw [enter_requeue_refused hc h0 h2] at h
      exact not_ends_refused ht h
    refine ⟨h2, fun he => by_contra fun hlt => ?_⟩
    rw [enter_requeue hc h0 h2, he] at h
    obtain ⟨m, hm⟩ := h
    have hnone := requeue_stuck view rfl m (k := 0) (L := L)
      (s := { s with pcs := s.pcs.set c.t (.requeue c.uaddr c.val.toNat c.uaddr 0 (.head (futexHashKey c.uaddr))) })
      hF (getElem?_set ht _) (by rw [Nat.sub_zero]; exact Nat.lt_of_not_le hlt)
    rw [hm m (Nat.le_refl m)] at hnone
    cases hnone

/-- The count is `val`, or there is nobody to count. -/
theorem callOk_iff : CallOk s L c ↔ Passes s L c ∧
    ((waitersOn s L c.uaddr).take (int32 c.val.toNat).toNat).length =
      min c.val.toNat (waitersOn s L c.uaddr).length := by
  have hint := int32_toNat c.val
  have hnil : waitersOn s L c.uaddr = [] ↔ (waitersOn s L c.uaddr).length = 0 := List.length_eq_zero_iff.symm
  have hwhile : ((L (futexHashKey c.uaddr)).takeWhile (waitsOn s c.uaddr)).length ≤ (waitersOn s L c.uaddr).length := by
    rw [← List.filter_eq_self.2 (List.all_eq_true.1 (List.all_takeWhile (p := waitsOn s c.uaddr)))]
    exact ((List.takeWhile_sublist _).filter _).length_le
  rw [List.length_take]
  unfold CallOk Passes
  rw [hnil]
  cases c.op with
  | wake =>
    simp only [and_true]
    split at hint <;> omega
  | requeue uaddr2 =>
    dsimp only
    split at hint <;> omega

theorem Moved.of_callOk (hok : CallOk s L c) (h : Moved s L c (int32 c.val.toNat).toNat u L') :
    Moved s L c c.val.toNat u L' := by
  rcases hok.2.1 with hlt | hnil
  · rwa [int32_toNat, if_pos hlt] at h
  · simp only [Moved, hnil, List.take_nil, List.drop_nil] at h ⊢
    exact h

/-- **`FUTEX_WAKE` and `FUTEX_REQUEUE` obey their law exactly when the call may be made and every waiter they wake sees the
word changed, a signal, or its deadline.** -/
theorem lawful_iff (s : System) (L : Nat → List Nat) (c : Call) (view : Nat → Nat → View) (hF : s.store.Family L)
    {ret : Int} (ht : s.pcs[c.t]? = some (.user ret)) :
    Lawful s L c view ↔ CallOk s L c ∧
      ∀ w ∈ (waitersOn s L c.uaddr).take c.val.toNat, ∀ p, s.pcs[w]? = some p → Leaves s (view w) p := by
  constructor
  · rintro ⟨u, L', hends, hfam, -, hwk⟩
    have hpass := passes_of_ends hF ht hends
    obtain ⟨v, -, hends1, -, -, hpcs⟩ := hpass.done (view c.t) hF ht
    obtain ⟨hret, rfl⟩ := hends.unique hends1
    refine ⟨callOk_iff.2 ⟨hpass, (Int.ofNat.inj hret).symm⟩, fun w hw p hp => ?_⟩
    cases p with
    | waiting uaddr val slot deadline =>
      have hne : w ≠ c.t := by
        rintro rfl
        rw [ht] at hp
        cases hp
      exact (waiting_iff hfam ((hpcs w hne).trans hp) s).1 (hwk w hw uaddr val slot deadline hp)
    | user _ => trivial
    | _ => trivial
  · rintro ⟨hok, hleaves⟩
    obtain ⟨hpass, hlen⟩ := callOk_iff.1 hok
    obtain ⟨u, L', hends, hfam, hmoved, hpcs⟩ := hpass.done (view c.t) hF ht
    rw [hlen] at hends
    refine ⟨u, L', hends, hfam, hmoved.of_callOk hok, fun w hw uaddr val slot deadline hp => ?_⟩
    have hne : w ≠ c.t := by
      rintro rfl
      rw [ht] at hp
      cases hp
    exact (waiting_iff hfam ((hpcs w hne).trans hp) s).2 (hleaves w hw _ hp)
/-! ## Two waiters -/

/-- Task 0 is outside; tasks 1 and 2 wait for the word at 4096 to be other than 0. -/
def waiters : System where
  mem _ := 0
  store := ⟨fun b => if b = futexHashKey 4096 then some 1 else none, fun w => if w = 1 then some 2 else none⟩
  waiters _ := ⟨4096, 0⟩
  pcs := [.user 0, .waiting 4096 0 (futexHashKey 4096) 0, .waiting 4096 0 (futexHashKey 4096) 0]

def waitersLists (b : Nat) : List Nat := if b = futexHashKey 4096 then [1, 2] else []

theorem waiters_family : waiters.store.Family waitersLists where
  seg b := by
    by_cases hb : b = futexHashKey 4096
    · subst hb
      exact ⟨rfl, rfl, rfl⟩
    · simp only [waitersLists, waiters, if_neg hb]
      rfl
  nodup b := by
    unfold waitersLists
    split <;> decide
  disjoint b b' x hx hx' := by
    unfold waitersLists at hx hx'
    split at hx <;> split at hx' <;> simp_all

/-- Task 0's call. -/
def calls (op : Op) (val : UInt32) : Call := ⟨0, op, false, false, 4096, val⟩

/-- The word changes after three turns. -/
theorem lawful_iff_waiters : Lawful waiters waitersLists (calls .wake 1)
    fun _ k => ⟨fun _ => if k < 3 then 0 else 1, false, 0⟩ := by
  refine (lawful_iff waiters waitersLists (calls .wake 1) _ waiters_family rfl).2
    ⟨⟨by decide, .inl (by decide), trivial⟩, fun w hw p hp => ?_⟩
  rw [show w = 1 from List.mem_singleton.1 hw] at hp
  cases hp
  exact ⟨3, rfl⟩

/-- A requeue to the same address, with nobody to wake, never returns. -/
theorem not_lawful_same : ¬∀ (s : System) (L : Nat → List Nat) (c : Call) (view : Nat → Nat → View), s.store.Family L →
    (∃ ret, s.pcs[c.t]? = some (.user ret)) → Lawful s L c view := by
  intro h
  obtain ⟨u, L', hends, -⟩ := h waiters waitersLists (calls (.requeue 4096) 0) (fun _ _ => ⟨fun _ => 1, false, 0⟩)
    waiters_family ⟨0, rfl⟩
  have hlen := (passes_of_ends waiters_family rfl hends).2.2 rfl
  exact absurd hlen (by decide)

end Futex
end Pico
