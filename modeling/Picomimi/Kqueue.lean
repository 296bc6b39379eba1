import Mathlib.Data.List.Nodup
import Picomimi.Lib.Packed
import Picomimi.Lib.Run
/-!
# Kqueue — the registration table of `kqueue_kevent`

The registered events are the first `nregistered` cells of an array of 256.  A change list adds, replaces and removes
entries by their key; collecting walks the table, reports what is ready and removes the one-shot entries it reports while
it walks.  What `sys_poll` answers is left open: it may differ from one turn of the loop to the next.
-/
namespace Pico
namespace Kqueue

open Lib

def KQUEUE_MAX_EVENTS : Nat := 256

def EVFILT_READ : Int16 := -1
def EVFILT_WRITE : Int16 := -2
def EVFILT_SIGNAL : Int16 := -6
def EVFILT_TIMER : Int16 := -7

def EV_ADD : UInt16 := 0x0001
def EV_DELETE : UInt16 := 0x0002
def EV_DISABLE : UInt16 := 0x0008
def EV_ONESHOT : UInt16 := 0x0010
def EV_EOF : UInt16 := 0x8000

/-- A `kevent_t`.  A registered `kevent64_t` has these fields too, and an `ext` that nothing here reads or writes. -/
structure Kevent where
  ident : UInt64
  filter : Int16
  flags : UInt16
  fflags : UInt32
  data : Int64
  udata : UInt64
deriving DecidableEq

structure KqueueState where
  registered : Nat → Kevent
  nregistered : Nat

/-- The first registered entry with the identifier and filter of `ev`. -/
def findSlot (kq : KqueueState) (ev : Kevent) : Option Nat :=
  (List.range kq.nregistered).find? fun j =>
    (kq.registered j).ident == ev.ident && (kq.registered j).filter == ev.filter

def removeSlot (kq : KqueueState) (j : Nat) : KqueueState :=
  { registered := Packed.shiftDown kq.registered j (kq.nregistered - 1 - j), nregistered := kq.nregistered - 1 }

/-- One turn of the change loop. -/
def kqueueChange (kq : KqueueState) (ev : Kevent) : KqueueState :=
  if ev.flags &&& EV_ADD ≠ 0 then
    match findSlot kq ev with
    | some slot => { kq with registered := Function.update kq.registered slot ev }
    | none =>
      if kq.nregistered < KQUEUE_MAX_EVENTS then
        { registered := Function.update kq.registered kq.nregistered ev, nregistered := kq.nregistered + 1 }
      else kq
  else if ev.flags &&& EV_DELETE ≠ 0 then
    match findSlot kq ev with
    | some j => removeSlot kq j
    | none => kq
  else kq

/-- What `sys_poll` returns for one descriptor: its result and the `revents` it left. -/
abbrev Poll := Int32 → Int16 → Int × Int16

/-- The data of a ready entry. -/
def kqReady (sysPoll : Poll) (reg : Kevent) : Option Int64 :=
  if reg.filter = EVFILT_READ ∨ reg.filter = EVFILT_WRITE then
    let events : Int16 := if reg.filter = EVFILT_READ then 1 else 4
    let (pr, revents) := sysPoll reg.ident.toUInt32.toInt32 events
    if 0 < pr ∧ revents &&& events ≠ 0 then some 1 else none
  else if reg.filter = EVFILT_SIGNAL then none
  else if reg.filter = EVFILT_TIMER then some reg.data
  else none

def reportOf (reg : Kevent) (data : Int64) : Kevent :=
  { ident := reg.ident, filter := reg.filter, flags := EV_EOF, fflags := 0, data := data, udata := reg.udata }

/-- The collecting loop, from index `i` on its turn `t`, with what it has reported so far. -/
def collect (sysPoll : Nat → Poll) (nevents : Int) : Nat → Nat → KqueueState → Nat → List Kevent →
    Option (KqueueState × List Kevent)
  | 0, _, _, _, _ => none
  | fuel + 1, t, kq, i, out =>
    if i < kq.nregistered ∧ (out.length : Int) < nevents then
      let reg := kq.registered i
      if reg.flags &&& EV_DISABLE ≠ 0 then collect sysPoll nevents fuel (t + 1) kq (i + 1) out
      else
        match kqReady (sysPoll t) reg with
        | none => collect sysPoll nevents fuel (t + 1) kq (i + 1) out
        | some data =>
          if reg.flags &&& EV_ONESHOT ≠ 0 then
            -- `i--` before the loop's `i++`
            collect sysPoll nevents fuel (t + 1) (removeSlot kq i) i (out ++ [reportOf reg data])
          else collect sysPoll nevents fuel (t + 1) kq (i + 1) (out ++ [reportOf reg data])
    else some (kq, out)

/-- A call: the changes, whether there is an event list and for how many, and what `sys_poll` answers turn by turn. -/
structure Call where
  changelist : List Kevent
  eventlist : Bool
  nevents : Int
  sysPoll : Nat → Poll

/-- `kqueue_kevent` on a kqueue's descriptor, and the events it reports. -/
def kqueueKevent (kq : KqueueState) (c : Call) : Option (KqueueState × List Kevent) :=
  let kq := c.changelist.foldl kqueueChange kq
  if c.nevents = 0 ∨ c.eventlist = false then some (kq, [])
  else collect c.sysPoll c.nevents (kq.nregistered + 1) 0 kq 0 []

/-- A kqueue from `kqueue_create` on. -/
def kqueueMachine : Machine KqueueState Call where
  init kq := kq.nregistered = 0
  step kq c := (kqueueKevent kq c).map Prod.fst

/-! ### The table as a bounded map -/

def Kevent.key (e : Kevent) : UInt64 × Int16 := (e.ident, e.filter)

def KqueueState.entries (kq : KqueueState) : List Kevent := Packed.content kq.registered kq.nregistered

/-- **What a change means**: an addition replaces the entry of its key, or comes last while there is room; a deletion removes
the entry of its key. -/
def change (l : List Kevent) (ev : Kevent) : List Kevent :=
  if ev.flags &&& EV_ADD ≠ 0 then
    if ev.key ∈ l.map Kevent.key then l.map fun r => if r.key = ev.key then ev else r
    else if l.length < KQUEUE_MAX_EVENTS then l ++ [ev] else l
  else if ev.flags &&& EV_DELETE ≠ 0 then l.filter fun r => r.key ≠ ev.key
  else l

/-- What is reported of an entry on turn `p.2`, when it is enabled and ready. -/
def due (sysPoll : Nat → Poll) (p : Kevent × Nat) : Option Kevent :=
  if p.1.flags &&& EV_DISABLE ≠ 0 then none else (kqReady (sysPoll p.2) p.1).map (reportOf p.1)

/-- The ready entries, in order, as far as there is room for their events. -/
def reported (sysPoll : Nat → Poll) (ps : List (Kevent × Nat)) (cap : Nat) : List (Kevent × Nat) :=
  (ps.filter fun p => (due sysPoll p).isSome).take cap

/-- What stays: all but the one-shot entries that were reported. -/
def kept (sysPoll : Nat → Poll) (ps : List (Kevent × Nat)) (cap : Nat) : List (Kevent × Nat) :=
  ps.filter fun p => ¬(p ∈ reported sysPoll ps cap ∧ p.1.flags &&& EV_ONESHOT ≠ 0)

/-- **What a call means**: the table after it and the events it reports.  The changes come first, in order; a call with
room for events then reports the entries that are due, and loses the one-shot ones among them. -/
def called (c : Call) (l : List Kevent) : List Kevent × List Kevent :=
  let l := c.changelist.foldl change l
  if c.nevents = 0 ∨ c.eventlist = false then (l, [])
  else ((kept c.sysPoll l.zipIdx c.nevents.toNat).map Prod.fst,
    (reported c.sysPoll l.zipIdx c.nevents.toNat).filterMap (due c.sysPoll))

/-- The keys of a table are distinct, and there is room for it. -/
structure Table (l : List Kevent) : Prop where
  fits : l.length ≤ KQUEUE_MAX_EVENTS
  distinct : (l.map Kevent.key).Nodup

@[simp] theorem KqueueState.length_entries (kq : KqueueState) : kq.entries.length = kq.nregistered := Packed.length_content

theorem beq_key (a b : Kevent) : (a.ident == b.ident && a.filter == b.filter) = decide (a.key = b.key) := by
  simp [Kevent.key, Bool.beq_eq_decide_eq, Prod.ext_iff]

theorem findSlot_some {kq : KqueueState} {ev : Kevent} {j : Nat} (h : findSlot kq ev = some j) :
    j < kq.nregistered ∧ (kq.registered j).key = ev.key := by
  unfold findSlot at h
  have hp := List.find?_some h
  rw [beq_key, decide_eq_true_eq] at hp
  exact ⟨List.mem_range.1 (List.mem_of_find?_eq_some h), hp⟩

theorem findSlot_none {kq : KqueueState} {ev : Kevent} (h : findSlot kq ev = none) :
    ev.key ∉ kq.entries.map Kevent.key := by
  intro hmem
  obtain ⟨r, hr, hkey⟩ := List.mem_map.1 hmem
  obtain ⟨j, hj, rfl⟩ := List.mem_map.1 hr
  have hno := List.find?_eq_none.1 h j hj
  rw [beq_key, decide_eq_true_eq] at hno
  exact hno hkey

/-- Where a table has an entry, a store there replaces the entry of that key. -/
theorem set_eq_map : ∀ {l : List Kevent} {j : Nat} {r ev : Kevent}, (l.map Kevent.key).Nodup → l[j]? = some r →
    r.key = ev.key → l.set j ev = l.map fun r => if r.key = ev.key then ev else r
  | [], _, _, _, _, hj, _ => by simp at hj
  | a :: l, 0, r, ev, hnd, hj, hkey => by
    cases hj
    obtain ⟨hno, -⟩ := List.nodup_cons.1 hnd
    rw [List.set_cons_zero, List.map_cons, if_pos hkey]
    congr 1
    refine (List.map_id' l).symm.trans (List.map_congr_left fun b hb => ?_)
    rw [if_neg]
    intro hb'
    exact hno (List.mem_map.2 ⟨b, hb, hb'.trans hkey.symm⟩)
  | a :: l, j + 1, r, ev, hnd, hj, hkey => by
    obtain ⟨hno, hnd'⟩ := List.nodup_cons.1 hnd
    have hr : r ∈ l := List.mem_of_getElem? hj
    rw [List.set_cons_succ, List.map_cons, if_neg, set_eq_map hnd' hj hkey]
    intro ha
    exact hno (List.mem_map.2 ⟨r, hr, hkey.trans ha.symm⟩)

/-- Removing the place of a key removes the key. -/
theorem eraseIdx_eq_filter : ∀ {l : List Kevent} {j : Nat} {r ev : Kevent}, (l.map Kevent.key).Nodup → l[j]? = some r →
    r.key = ev.key → l.eraseIdx j = l.filter fun r => r.key ≠ ev.key
  | [], _, _, _, _, hj, _ => by simp at hj
  | a :: l, 0, r, ev, hnd, hj, hkey => by
    cases hj
    obtain ⟨hno, -⟩ := List.nodup_cons.1 hnd
    rw [List.eraseIdx_cons_zero, List.filter_cons_of_neg (by simpa using hkey)]
    refine (List.filter_eq_self.2 fun b hb => ?_).symm
    rw [decide_eq_true_eq]
    intro hb'
    exact hno (List.mem_map.2 ⟨b, hb, hb'.trans hkey.symm⟩)
  | a :: l, j + 1, r, ev, hnd, hj, hkey => by
    obtain ⟨hno, hnd'⟩ := List.nodup_cons.1 hnd
    have hr : r ∈ l := List.mem_of_getElem? hj
    rw [List.eraseIdx_cons_succ, List.filter_cons_of_pos, eraseIdx_eq_filter hnd' hj hkey]
    rw [decide_eq_true_eq]
    intro ha
    exact hno (List.mem_map.2 ⟨r, hr, hkey.trans ha.symm⟩)

theorem entries_removeSlot {kq : KqueueState} {j : Nat} (hj : j < kq.nregistered) :
    (removeSlot kq j).entries = kq.entries.eraseIdx j := Packed.content_shiftDown hj

/-- **A turn of the change loop is a change of the map.** -/
theorem kqueueChange_entries {kq : KqueueState} (h : Table kq.entries) (ev : Kevent) :
    (kqueueChange kq ev).entries = change kq.entries ev := by
  unfold kqueueChange change
  by_cases hadd : ev.flags &&& EV_ADD ≠ 0
  · rw [if_pos hadd, if_pos hadd]
    cases hslot : findSlot kq ev with
    | some slot =>
      obtain ⟨hlt, hkey⟩ := findSlot_some hslot
      have hget : kq.entries[slot]? = some (kq.registered slot) := Packed.getElem?_content hlt
      rw [if_pos (List.mem_map.2 ⟨_, List.mem_of_getElem? hget, hkey⟩), ← set_eq_map h.distinct hget hkey]
      exact Packed.content_update ev
    | none =>
      rw [if_neg (findSlot_none hslot), KqueueState.length_entries]
      by_cases hfull : kq.nregistered < KQUEUE_MAX_EVENTS
      · rw [if_pos hfull, if_pos hfull]
        exact Packed.content_push ev
      · rw [if_neg hfull, if_neg hfull]
  · rw [if_neg hadd, if_neg hadd]
    by_cases hdel : ev.flags &&& EV_DELETE ≠ 0
    · rw [if_pos hdel, if_pos hdel]
      cases hslot : findSlot kq ev with
      | some j =>
        obtain ⟨hlt, hkey⟩ := findSlot_some hslot
        have hget : kq.entries[j]? = some (kq.registered j) := Packed.getElem?_content hlt
        rw [← eraseIdx_eq_filter h.distinct hget hkey]
        exact entries_removeSlot hlt
      | none =>
        refine (List.filter_eq_self.2 fun r hr => ?_).symm
        rw [decide_eq_true_eq]
        intro hkey
        exact findSlot_none hslot (List.mem_map.2 ⟨r, hr, hkey⟩)
    · rw [if_neg hdel, if_neg hdel]

theorem Table.filter {l : List Kevent} (h : Table l) (p : Kevent → Bool) : Table (l.filter p) :=
  ⟨(List.length_filter_le _ _).trans h.fits, h.distinct.sublist (List.filter_sublist.map Kevent.key)⟩

/-- Replacing entries of one key by another of that key keeps the keys. -/
theorem keys_replace (l : List Kevent) (ev : Kevent) :
    (l.map fun r => if r.key = ev.key then ev else r).map Kevent.key = l.map Kevent.key := by
  rw [List.map_map]
  refine List.map_congr_left fun r _ => ?_
  simp only [Function.comp_apply]
  by_cases hkey : r.key = ev.key
  · rw [if_pos hkey, hkey]
  · rw [if_neg hkey]

theorem Table.change {l : List Kevent} (h : Table l) (ev : Kevent) : Table (change l ev) := by
  unfold Kqueue.change
  by_cases hadd : ev.flags &&& EV_ADD ≠ 0
  · rw [if_pos hadd]
    by_cases hmem : ev.key ∈ l.map Kevent.key
    · rw [if_pos hmem]
      refine ⟨?_, ?_⟩
      · rw [List.length_map]
        exact h.fits
      · rw [keys_replace]
        exact h.distinct
    · rw [if_neg hmem]
      by_cases hfull : l.length < KQUEUE_MAX_EVENTS
      · rw [if_pos hfull]
        refine ⟨?_, ?_⟩
        · rw [List.length_append, List.length_singleton]
          exact hfull
        · rw [List.map_append, List.map_singleton, List.nodup_append_comm]
          exact List.nodup_cons.2 ⟨hmem, h.distinct⟩
      · rw [if_neg hfull]
        exact h
  · rw [if_neg hadd]
    by_cases hdel : ev.flags &&& EV_DELETE ≠ 0
    · rw [if_pos hdel]
      exact h.filter _
    · rw [if_neg hdel]
      exact h

theorem Table.changes {l : List Kevent} (h : Table l) : ∀ evs : List Kevent, Table (evs.foldl Kqueue.change l) := fun evs => by
  induction evs generalizing l with
  | nil => exact h
  | cons ev evs ih => exact ih (h.change ev)

theorem foldl_change : ∀ (evs : List Kevent) {kq : KqueueState}, Table kq.entries →
    (evs.foldl kqueueChange kq).entries = evs.foldl change kq.entries
  | [], _, _ => rfl
  | ev :: evs, kq, h => by
    have hstep := kqueueChange_entries h ev
    have htab : Table (kqueueChange kq ev).entries := by
      rw [hstep]
      exact h.change ev
    have := foldl_change evs htab
    rwa [hstep] at this

/-! ### The collecting loop -/

section
variable (sysPoll : Nat → Poll) {p : Kevent × Nat} {ps : List (Kevent × Nat)} {cap : Nat}

@[simp] theorem kept_nil : kept sysPoll [] cap = [] := rfl

theorem kept_zero : kept sysPoll ps 0 = ps := List.filter_eq_self.2 fun p _ => by simp [reported]

theorem reported_of_none (h : due sysPoll p = none) : reported sysPoll (p :: ps) cap = reported sysPoll ps cap := by
  unfold reported
  rw [List.filter_cons_of_neg (by simp [h])]

theorem reported_of_some {ev : Kevent} (h : due sysPoll p = some ev) :
    reported sysPoll (p :: ps) (cap + 1) = p :: reported sysPoll ps cap := by
  unfold reported
  rw [List.filter_cons_of_pos (by simp [h]), List.take_succ_cons]

theorem due_of_mem_reported (h : p ∈ reported sysPoll ps cap) : (due sysPoll p).isSome :=
  (List.mem_filter.1 (List.mem_of_mem_take h)).2

theorem kept_of_none (h : due sysPoll p = none) : kept sysPoll (p :: ps) cap = p :: kept sysPoll ps cap := by
  unfold kept
  rw [reported_of_none sysPoll h, List.filter_cons_of_pos]
  rw [decide_eq_true_eq]
  rintro ⟨hmem, -⟩
  have := due_of_mem_reported sysPoll hmem
  rw [h] at this
  cases this

/-- Behind a reported entry the others fare as they would with one place less. -/
theorem kept_of_some {ev : Kevent} (h : due sysPoll p = some ev) (hp : p ∉ ps) :
    kept sysPoll (p :: ps) (cap + 1) =
      if p.1.flags &&& EV_ONESHOT ≠ 0 then kept sysPoll ps cap else p :: kept sysPoll ps cap := by
  have hrest : (ps.filter fun q => ¬(q ∈ reported sysPoll (p :: ps) (cap + 1) ∧ q.1.flags &&& EV_ONESHOT ≠ 0)) =
      kept sysPoll ps cap := by
    refine List.filter_congr fun q hq => ?_
    have hne : q ≠ p := fun heq => hp (heq ▸ hq)
    have hiff : q ∈ reported sysPoll (p :: ps) (cap + 1) ↔ q ∈ reported sysPoll ps cap := by
      rw [reported_of_some sysPoll h, List.mem_cons, or_iff_right hne]
    simp only [hiff]
  have hmem : p ∈ reported sysPoll (p :: ps) (cap + 1) := by
    rw [reported_of_some sysPoll h]
    exact List.mem_cons_self
  rw [← hrest]
  unfold kept
  by_cases hone : p.1.flags &&& EV_ONESHOT ≠ 0
  · rw [if_pos hone, List.filter_cons_of_neg (by simp [hmem, hone])]
  · rw [if_neg hone, List.filter_cons_of_pos (by simp [hone])]

end

/-- **The collecting loop reports and keeps what it should**, from any turn: before `i` it has dealt with `pre`, and `rest`
is still to come. -/
theorem collect_spec (sysPoll : Nat → Poll) (nevents : Int) : ∀ (rest pre : List Kevent) (fuel t : Nat) (kq : KqueueState)
    (out : List Kevent), kq.entries = pre ++ rest → rest.length < fuel →
      ∃ kq', collect sysPoll nevents fuel t kq pre.length out = some (kq',
          out ++ (reported sysPoll (rest.zipIdx t) (nevents - out.length).toNat).filterMap (due sysPoll)) ∧
        kq'.entries = pre ++ (kept sysPoll (rest.zipIdx t) (nevents - out.length).toNat).map Prod.fst
  | _, _, 0, _, _, _, _, hfuel => by omega
  | rest, pre, fuel + 1, t, kq, out, hkq, hfuel => by
    have hn : kq.nregistered = pre.length + rest.length := by
      rw [← KqueueState.length_entries, hkq, List.length_append]
    unfold collect
    by_cases hroom : (out.length : Int) < nevents
    swap
    · -- the event list is full
      have hcap : (nevents - out.length).toNat = 0 := by omega
      rw [if_neg (by omega), hcap, kept_zero]
      refine ⟨kq, ?_, ?_⟩
      · simp [reported]
      · rw [List.zipIdx_map_fst, hkq]
    cases rest with
    | nil =>
      rw [if_neg (by rw [hn]; simp)]
      refine ⟨kq, ?_, ?_⟩
      · simp [reported]
      · simpa using hkq
    | cons reg rest =>
      have hcond : pre.length < kq.nregistered ∧ (out.length : Int) < nevents := by
        refine ⟨?_, hroom⟩
        rw [hn, List.length_cons]
        omega
      have hget : kq.registered pre.length = reg := by
        have h := Packed.getElem?_content hcond.1 (f := kq.registered)
        change kq.entries[pre.length]? = _ at h
        rw [hkq, List.getElem?_append_right (Nat.le_refl _), Nat.sub_self] at h
        cases h
        rfl
      have hfuel' : rest.length < fuel := by
        rw [List.length_cons] at hfuel
        omega
      have hnext : kq.entries = (pre ++ [reg]) ++ rest := by
        rw [hkq, List.append_assoc, List.singleton_append]
      obtain ⟨cap, hcap⟩ : ∃ cap, (nevents - out.length).toNat = cap + 1 := ⟨(nevents - out.length).toNat - 1, by omega⟩
      have hnotmem : (reg, t) ∉ rest.zipIdx (t + 1) := fun hmem => by
        have := List.le_snd_of_mem_zipIdx hmem
        simp only at this
        omega
      rw [if_pos hcond]
      simp only [hget, List.zipIdx_cons]
      -- the turn passes over an entry that is not due
      have hpass : due sysPoll (reg, t) = none →
          ∃ kq', collect sysPoll nevents fuel (t + 1) kq (pre.length + 1) out = some (kq', out ++
              (reported sysPoll ((reg, t) :: rest.zipIdx (t + 1)) (nevents - out.length).toNat).filterMap (due sysPoll)) ∧
            kq'.entries = pre ++
              (kept sysPoll ((reg, t) :: rest.zipIdx (t + 1)) (nevents - out.length).toNat).map Prod.fst := by
        intro hdue
        obtain ⟨kq', hrun, hent⟩ := collect_spec sysPoll nevents rest (pre ++ [reg]) fuel (t + 1) kq out hnext hfuel'
        rw [List.length_append, List.length_singleton] at hrun
        refine ⟨kq', ?_, ?_⟩
        · rw [hrun, reported_of_none sysPoll hdue]
        · rw [hent, kept_of_none sysPoll hdue, List.map_cons, List.append_assoc, List.singleton_append]
      by_cases hdis : reg.flags &&& EV_DISABLE ≠ 0
      · rw [if_pos hdis]
        exact hpass (by simp only [due]; rw [if_pos hdis])
      rw [if_neg hdis]
      cases hready : kqReady (sysPoll t) reg with
      | none => exact hpass (by simp only [due]; rw [if_neg hdis, hready]; rfl)
      | some data =>
        have hdue : due sysPoll (reg, t) = some (reportOf reg data) := by
          simp only [due]
          rw [if_neg hdis, hready]
          rfl
        have hcap' : (nevents - (out ++ [reportOf reg data]).length).toNat = cap := by
          rw [List.length_append, List.length_singleton]
          omega
        rw [hcap, reported_of_some sysPoll hdue, kept_of_some sysPoll hdue hnotmem, List.filterMap_cons_some hdue]
        simp only
        by_cases hone : reg.flags &&& EV_ONESHOT ≠ 0
        · rw [if_pos hone, if_pos hone]
          have herase : (removeSlot kq pre.length).entries = pre ++ rest := by
            rw [entries_removeSlot hcond.1, hkq, List.eraseIdx_append_of_length_le (Nat.le_refl _), Nat.sub_self]
            rfl
          obtain ⟨kq', hrun, hent⟩ := collect_spec sysPoll nevents rest pre fuel (t + 1) (removeSlot kq pre.length)
            (out ++ [reportOf reg data]) herase hfuel'
          rw [hcap'] at hrun hent
          refine ⟨kq', ?_, hent⟩
          rw [hrun, List.append_assoc, List.singleton_append]
        · rw [if_neg hone, if_neg hone]
          obtain ⟨kq', hrun, hent⟩ := collect_spec sysPoll nevents rest (pre ++ [reg]) fuel (t + 1) kq
            (out ++ [reportOf reg data]) hnext hfuel'
          rw [List.length_append, List.length_singleton] at hrun
          rw [hcap'] at hrun hent
          refine ⟨kq', ?_, ?_⟩
          · rw [hrun, List.append_assoc, List.singleton_append]
          · rw [hent, List.map_cons, List.append_assoc, List.singleton_append]

theorem zipIdx_filter_fst (l : List Kevent) (k : Nat) (p : Kevent × Nat → Bool) :
    (((l.zipIdx k).filter p).map Prod.fst).Sublist l := by
  have h := (List.filter_sublist (p := p) (l := l.zipIdx k)).map Prod.fst
  rwa [List.zipIdx_map_fst] at h

theorem Table.sublist {l l' : List Kevent} (h : Table l) (hs : l'.Sublist l) : Table l' :=
  ⟨hs.length_le.trans h.fits, h.distinct.sublist (hs.map Kevent.key)⟩

/-- **A whole call** returns, and does to the table and reports what it means. -/
theorem kqueueKevent_spec {kq : KqueueState} (h : Table kq.entries) (c : Call) :
    ∃ kq', kqueueKevent kq c = some (kq', (called c kq.entries).2) ∧ kq'.entries = (called c kq.entries).1 := by
  have hfold := foldl_change c.changelist h
  unfold kqueueKevent called
  by_cases hnone : c.nevents = 0 ∨ c.eventlist = false
  · simp only [if_pos hnone]
    exact ⟨_, rfl, hfold⟩
  · simp only [if_neg hnone]
    obtain ⟨kq', hrun, hent⟩ := collect_spec c.sysPoll c.nevents (c.changelist.foldl kqueueChange kq).entries [] _ 0
      (c.changelist.foldl kqueueChange kq) [] rfl (by rw [KqueueState.length_entries]; exact Nat.lt_succ_self _)
    rw [hfold] at hent hrun
    refine ⟨kq', hrun.trans ?_, ?_⟩
    · simp
    · simpa using hent

theorem Table.called {l : List Kevent} (h : Table l) (c : Call) : Table (called c l).1 := by
  unfold Kqueue.called
  by_cases hnone : c.nevents = 0 ∨ c.eventlist = false
  · simp only [if_pos hnone]
    exact h.changes _
  · simp only [if_neg hnone]
    exact (h.changes c.changelist).sublist (zipIdx_filter_fst _ _ _)

/-- **The registration table is a bounded map.**  After any calls it has at most 256 entries with distinct keys, every
change does to it what the change means, and so does every call: the due entries are reported in table order as far as
there is room, each once, and the one-shot entries among them are removed and nothing else. -/
theorem kqueueKevent_map {kq₀ kq : KqueueState} {calls : List Call} (hinit : kqueueMachine.init kq₀)
    (hrun : kqueueMachine.run kq₀ calls = some kq) :
    (kq.nregistered ≤ KQUEUE_MAX_EVENTS ∧ (kq.entries.map Kevent.key).Nodup) ∧
      (∀ evs : List Kevent, (evs.foldl kqueueChange kq).entries = evs.foldl change kq.entries ∧
        Table (evs.foldl change kq.entries)) ∧
      ∀ c, ∃ kq', kqueueKevent kq c = some (kq', (called c kq.entries).2) ∧ kq'.entries = (called c kq.entries).1 := by
  have h : Table kq.entries := by
    refine kqueueMachine.run_invariant (P := fun kq => Table kq.entries) (fun kq c kq' hkq hstep => ?_) calls kq₀ kq ?_ hrun
    · obtain ⟨⟨kq₁, out⟩, hcall, rfl⟩ := Option.map_eq_some_iff.1 hstep
      obtain ⟨kq₂, hcall', hent⟩ := kqueueKevent_spec hkq c
      rw [hcall'] at hcall
      cases hcall
      simp only [hent]
      exact hkq.called c
    · have hnil : kq₀.entries = [] := List.length_eq_zero_iff.1 (by rw [KqueueState.length_entries]; exact hinit)
      rw [hnil]
      exact ⟨Nat.zero_le _, List.nodup_nil⟩
  refine ⟨⟨?_, h.distinct⟩, fun evs => ⟨foldl_change evs h, h.changes evs⟩, fun c => kqueueKevent_spec h c⟩
  rw [← KqueueState.length_entries]
  exact h.fits

/-- A one-shot timer. -/
def timer (ident : UInt64) : Kevent := ⟨ident, EVFILT_TIMER, EV_ADD ||| EV_ONESHOT, 0, 5, 0⟩

/-- Two one-shot timers side by side and a third behind them: the first two are reported and gone, the third waits. -/
theorem kqueueKevent_map_oneshots :
    (kqueueMachine.run ⟨fun _ => timer 0, 0⟩
        [⟨[timer 1, timer 2, timer 3, timer 2], false, 0, fun _ _ _ => (0, 0)⟩, ⟨[], true, 2, fun _ _ _ => (0, 0)⟩]).map
      KqueueState.entries = some [timer 3] ∧
    ∀ kq, kqueueMachine.run ⟨fun _ => timer 0, 0⟩
        [⟨[timer 1, timer 2, timer 3, timer 2], false, 0, fun _ _ _ => (0, 0)⟩, ⟨[], true, 2, fun _ _ _ => (0, 0)⟩] =
      some kq → (kq.entries.map Kevent.key).Nodup :=
  ⟨by decide, fun _ hrun => (@kqueueKevent_map ⟨fun _ => timer 0, 0⟩ _ _ rfl hrun).1.2⟩

end Kqueue
end Pico
