import Picomimi.Lib.Run
import Mathlib.Algebra.BigOperators.Group.Finset.Basic
import Mathlib.Algebra.Order.BigOperators.Group.Finset
import Mathlib.Data.Finset.Max
import Mathlib.Data.Fintype.Basic
/-!
# SpinLocks — calls that take several test-and-set locks in one order

A call takes its locks one behind the other and gives all of them back at its end; a processor that finds a lock taken spins
on its word.  `SpinLocks.machine` takes the steps of all processors in any order.  No two calls that share a lock are ever both
inside, and as every call takes its locks in ascending order, whatever state has been reached the calls can all be finished.
-/
namespace Pico
namespace Lib
namespace SpinLocks

/-- The kinds of calls, with the locks each takes and the order in which it gives them back. -/
structure Calls (K L : Type) [LT L] where
  locks : K → List L
  unlocks : K → List L
  ascending : ∀ k, (locks k).Pairwise (· < ·)
  perm : ∀ k, (unlocks k).Perm (locks k)

/-- A call on its way: the locks it has, those it has yet to take, whether it spins on the first of these, and those it has yet
to give back. -/
structure Call (K L : Type) where
  kind : K
  held : List L
  waits : List L
  spins : Bool
  unlocks : List L
  deriving DecidableEq, Repr

structure State (C K L : Type) where
  /-- Whether the word of a lock is 1. -/
  word : L → Bool
  call : C → Option (Call K L)

inductive Op (C K : Type)
  | enter (c : C) (kind : K)
  /-- The exchange of the word with 1. -/
  | exchange (c : C)
  /-- A turn of the inner loop, which only reads. -/
  | look (c : C)
  | unlock (c : C)
  | leave (c : C)
  deriving DecidableEq, Repr

variable {C K L : Type} [DecidableEq C] [LinearOrder L]

def State.set (s : State C K L) (c : C) (call : Option (Call K L)) : State C K L :=
  { s with call := Function.update s.call c call }

def State.setWord (s : State C K L) (l : L) (b : Bool) : State C K L := { s with word := Function.update s.word l b }

/-- **One step**; `none` when it is not the one that comes next on its processor. -/
def step (P : Calls K L) (s : State C K L) : Op C K → Option (State C K L)
  | .enter c kind =>
    match s.call c with
    | some _ => none
    | none => some (s.set c (some ⟨kind, [], P.locks kind, false, P.unlocks kind⟩))
  | .exchange c =>
    match s.call c with
    | some ⟨kind, held, l :: waits, false, unlocks⟩ =>
      if s.word l then some (s.set c (some ⟨kind, held, l :: waits, true, unlocks⟩))
      else some ((s.setWord l true).set c (some ⟨kind, held ++ [l], waits, false, unlocks⟩))
    | _ => none
  | .look c =>
    match s.call c with
    | some ⟨kind, held, l :: waits, true, unlocks⟩ =>
      if s.word l then some s else some (s.set c (some ⟨kind, held, l :: waits, false, unlocks⟩))
    | _ => none
  | .unlock c =>
    match s.call c with
    | some ⟨kind, held, [], spins, l :: unlocks⟩ =>
      some ((s.setWord l false).set c (some ⟨kind, held.erase l, [], spins, unlocks⟩))
    | _ => none
  | .leave c =>
    match s.call c with
    | some ⟨_, _, [], _, []⟩ => some (s.set c none)
    | _ => none

/-- All locks free and nobody in a call. -/
def machine (C : Type) [DecidableEq C] (P : Calls K L) : Machine (State C K L) (Op C K) where
  init s := (∀ l, s.word l = false) ∧ ∀ c, s.call c = none
  step := step P

/-- The locks a processor has. -/
def State.held (s : State C K L) (c : C) : List L := (s.call c).elim [] Call.held

/-- A call takes its locks in ascending order and has to give back what it has and has yet to take; before it gives any back
these are all its locks. -/
structure CallOk (P : Calls K L) (k : Call K L) : Prop where
  ascending : (k.held ++ k.waits).Pairwise (· < ·)
  perm : k.unlocks.Perm (k.held ++ k.waits)
  whole : k.unlocks = P.unlocks k.kind → k.held ++ k.waits = P.locks k.kind
  suffix : k.unlocks <:+ P.unlocks k.kind

/-- **The invariant**: a word is 1 while a processor has the lock, and no two have the same one. -/
structure Inv (P : Calls K L) (s : State C K L) : Prop where
  word : ∀ l, s.word l = true ↔ ∃ c, l ∈ s.held c
  apart : ∀ c d l, l ∈ s.held c → l ∈ s.held d → c = d
  calls : ∀ c k, s.call c = some k → CallOk P k

variable {P : Calls K L} {s s' : State C K L} {op : Op C K} {c d : C} {l : L} {k : Call K L}

omit [LinearOrder L] in
@[simp] theorem set_call_self (call : Option (Call K L)) : (s.set c call).call c = call := Function.update_self _ _ _

omit [LinearOrder L] in
theorem set_call_ne (call : Option (Call K L)) (h : d ≠ c) : (s.set c call).call d = s.call d := Function.update_of_ne h _ _

omit [LinearOrder L] in
theorem held_set_self (call : Option (Call K L)) : (s.set c call).held c = call.elim [] Call.held := by
  rw [State.held, set_call_self]

omit [LinearOrder L] in
theorem held_set_ne (call : Option (Call K L)) (h : d ≠ c) : (s.set c call).held d = s.held d := by
  rw [State.held, State.held, set_call_ne call h]

omit [DecidableEq C] [LinearOrder L] in
theorem held_of_call (h : s.call c = some k) : s.held c = k.held := by
  rw [State.held, h]
  rfl

theorem Inv.of_init (h : (machine C P).init s) : Inv P s := by
  obtain ⟨hword, hcall⟩ := h
  have hheld : ∀ c, s.held c = [] := fun c => by
    rw [State.held, hcall]
    rfl
  refine ⟨fun l => ?_, fun c d l hc => ?_, fun c k hk => ?_⟩
  · rw [hword]
    refine iff_of_false (by decide) fun ⟨c, hc⟩ => ?_
    rw [hheld] at hc
    cases hc
  · rw [hheld] at hc
    cases hc
  · rw [hcall] at hk
    cases hk

theorem calls_set (h : Inv P s) {call : Option (Call K L)} (hcall : ∀ k, call = some k → CallOk P k) :
    ∀ d k, (s.set c call).call d = some k → CallOk P k := by
  intro d k hk
  by_cases hd : d = c
  · rw [hd, set_call_self] at hk
    exact hcall k hk
  · rw [set_call_ne _ hd] at hk
    exact h.calls d k hk

/-- A step that changes a call and leaves the locks it has. -/
theorem Inv.set (h : Inv P s) {call : Option (Call K L)} (hheld : s.held c = call.elim [] Call.held)
    (hcall : ∀ k, call = some k → CallOk P k) : Inv P (s.set c call) := by
  have hsame : ∀ d, (s.set c call).held d = s.held d := by
    intro d
    by_cases hd : d = c
    · rw [hd, held_set_self, hheld]
    · exact held_set_ne _ hd
  refine ⟨fun l => ?_, fun d d' l => ?_, calls_set h hcall⟩
  · simp only [hsame]
    exact h.word l
  · simp only [hsame]
    exact h.apart d d' l

/-- A lock that is free is taken. -/
theorem Inv.take (h : Inv P s) (hfree : s.word l = false) (hheld : k.held = s.held c ++ [l]) (hk : CallOk P k) :
    Inv P ((s.setWord l true).set c (some k)) := by
  have hmem : ∀ d l', l' ∈ ((s.setWord l true).set c (some k)).held d ↔ l' ∈ s.held d ∨ d = c ∧ l' = l := by
    intro d l'
    by_cases hd : d = c
    · rw [hd, held_set_self, Option.elim_some, hheld, List.mem_append, List.mem_singleton]
      simp
    · rw [held_set_ne _ hd]
      simp only [hd, false_and, or_false]
      rfl
  have hnone : ∀ d, l ∉ s.held d := by
    intro d hd
    rw [(h.word l).2 ⟨d, hd⟩] at hfree
    cases hfree
  refine ⟨fun l' => ?_, fun d d' l' hd hd' => ?_, ?_⟩
  · by_cases hl : l' = l
    · rw [hl]
      exact iff_of_true (Function.update_self _ _ _) ⟨c, (hmem c l).2 (.inr ⟨rfl, rfl⟩)⟩
    · have hword : ((s.setWord l true).set c (some k)).word l' = s.word l' := Function.update_of_ne hl _ _
      rw [hword, h.word]
      simp only [hmem, hl, and_false, or_false]
  · rcases (hmem d l').1 hd with hold | ⟨rfl, rfl⟩
    · rcases (hmem d' l').1 hd' with hold' | ⟨rfl, rfl⟩
      · exact h.apart d d' l' hold hold'
      · exact absurd hold (hnone d)
    · rcases (hmem d' l').1 hd' with hold' | ⟨rfl, -⟩
      · exact absurd hold' (hnone d')
      · rfl
  · intro d k' hk'
    have hcall : ∀ k', some k = some k' → CallOk P k' := by
      intro k' hk'
      cases hk'
      exact hk
    exact calls_set (s := s) (c := c) h hcall d k' hk'

/-- A lock that a processor has is given back. -/
theorem Inv.giveBack (h : Inv P s) (hl : l ∈ s.held c) (hnodup : (s.held c).Nodup) (hheld : k.held = (s.held c).erase l)
    (hk : CallOk P k) : Inv P ((s.setWord l false).set c (some k)) := by
  have hmem : ∀ d l', l' ∈ ((s.setWord l false).set c (some k)).held d ↔ l' ∈ s.held d ∧ l' ≠ l := by
    intro d l'
    by_cases hd : d = c
    · rw [hd, held_set_self, Option.elim_some, hheld, hnodup.mem_erase_iff, And.comm]
    · rw [held_set_ne _ hd]
      refine ⟨fun hmem => ⟨hmem, ?_⟩, And.left⟩
      rintro rfl
      exact hd (h.apart d c l' hmem hl)
  refine ⟨fun l' => ?_, fun d d' l' hd hd' => h.apart d d' l' ((hmem d l').1 hd).1 ((hmem d' l').1 hd').1, ?_⟩
  · by_cases hl' : l' = l
    · have hword : ((s.setWord l false).set c (some k)).word l' = false := by
        rw [hl']
        exact Function.update_self _ _ _
      rw [hword]
      exact iff_of_false (by decide) fun ⟨d, hd⟩ => ((hmem d l').1 hd).2 hl'
    · have hword : ((s.setWord l false).set c (some k)).word l' = s.word l' := Function.update_of_ne hl' _ _
      rw [hword, h.word]
      simp only [hmem, hl', ne_eq, not_false_eq_true, and_true]
  · intro d k' hk'
    have hcall : ∀ k', some k = some k' → CallOk P k' := by
      intro k' hk'
      cases hk'
      exact hk
    exact calls_set (s := s) (c := c) h hcall d k' hk'

/-- **Every step keeps the invariant.** -/
theorem Inv.step (h : Inv P s) (hstep : step P s op = some s') : Inv P s' := by
  cases op with
  | enter c kind =>
    cases hc : s.call c with
    | some k => simp [SpinLocks.step, hc] at hstep
    | none =>
      simp only [SpinLocks.step, hc, Option.some.injEq] at hstep
      rw [← hstep]
      refine h.set ?_ fun k hk => ?_
      · rw [State.held, hc]
        rfl
      · cases hk
        exact ⟨P.ascending kind, P.perm kind, fun _ => rfl, List.suffix_refl _⟩
  | exchange c =>
    simp only [SpinLocks.step] at hstep
    split at hstep
    · rename_i kind held l waits unlocks hc
      have hok := h.calls c _ hc
      have hheld := held_of_call hc
      split at hstep
      · cases hstep
        refine h.set hheld fun k hk => ?_
        cases hk
        exact ⟨hok.ascending, hok.perm, hok.whole, hok.suffix⟩
      · rename_i hword
        cases hstep
        refine h.take (Bool.eq_false_iff.2 hword) (by rw [hheld]) ?_
        have happ : held ++ [l] ++ waits = held ++ l :: waits := by rw [List.append_assoc, List.singleton_append]
        refine ⟨?_, ?_, ?_, hok.suffix⟩
        · simp only
          rw [happ]
          exact hok.ascending
        · simp only
          rw [happ]
          exact hok.perm
        · simp only
          rw [happ]
          exact hok.whole
    · cases hstep
  | look c =>
    simp only [SpinLocks.step] at hstep
    split at hstep
    · rename_i kind held l waits unlocks hc
      have hok := h.calls c _ hc
      split at hstep
      · cases hstep
        exact h
      · cases hstep
        have hheld := held_of_call hc
        refine h.set hheld fun k hk => ?_
        cases hk
        exact ⟨hok.ascending, hok.perm, hok.whole, hok.suffix⟩
    · cases hstep
  | unlock c =>
    simp only [SpinLocks.step] at hstep
    split at hstep
    · rename_i kind held spins l unlocks hc
      have hok := h.calls c _ hc
      have hheld := held_of_call hc
      cases hstep
      have hperm : (l :: unlocks).Perm held := by simpa only [List.append_nil] using hok.perm
      have hascending : held.Pairwise (· < ·) := by simpa only [List.append_nil] using hok.ascending
      have hnodup : held.Nodup := hascending.imp ne_of_lt
      refine h.giveBack (hheld ▸ hperm.subset List.mem_cons_self) (hheld ▸ hnodup) (by rw [hheld]) ⟨?_, ?_, ?_, ?_⟩
      · simp only [List.append_nil]
        exact hascending.sublist List.erase_sublist
      · simp only [List.append_nil]
        have herase := hperm.erase l
        rwa [List.erase_cons_head] at herase
      · intro heq
        simp only at heq
        have hlen := hok.suffix.length_le
        simp only [heq, List.length_cons] at hlen
        omega
      · exact (List.suffix_cons l unlocks).trans hok.suffix
    · cases hstep
  | leave c =>
    simp only [SpinLocks.step] at hstep
    split at hstep
    · rename_i kind held spins hc
      have hok := h.calls c _ hc
      cases hstep
      refine h.set ?_ fun k hk => (by cases hk)
      rw [held_of_call hc]
      have hnil : held = [] := by simpa using hok.perm.symm.eq_nil
      exact hnil
    · cases hstep

theorem run_inv {s₀ : State C K L} {ops : List (Op C K)} (h0 : (machine C P).init s₀) (h : (machine C P).run s₀ ops = some s) :
    Inv P s :=
  (machine C P).run_invariant (P := Inv P) (fun _ _ _ hi hs => hi.step hs) ops s₀ s (.of_init h0) h

omit [DecidableEq C] in
/-- **Two calls that share a lock are never both inside**, that is with all their locks taken and none given back. -/
theorem Inv.exclusive (h : Inv P s) {k' : Call K L} (hc : s.call c = some k) (hd : s.call d = some k') (hin : k.waits = [])
    (hall : k.unlocks = P.unlocks k.kind) (hin' : k'.waits = []) (hall' : k'.unlocks = P.unlocks k'.kind) (hl : l ∈ P.locks k.kind)
    (hl' : l ∈ P.locks k'.kind) : c = d := by
  have hwhole := (h.calls c k hc).whole hall
  have hwhole' := (h.calls d k' hd).whole hall'
  rw [hin, List.append_nil] at hwhole
  rw [hin', List.append_nil] at hwhole'
  refine h.apart c d l ?_ ?_
  · rw [held_of_call hc, hwhole]
    exact hl
  · rw [held_of_call hd, hwhole']
    exact hl'

/-! ## Every call can be finished -/

/-- How many steps a call has before it, when nobody is in its way. -/
def Call.work (k : Call K L) : Nat := 3 * k.waits.length + (if k.spins then 1 else 0) + k.unlocks.length + 1

def State.work [Fintype C] (s : State C K L) : Nat := ∑ c, (s.call c).elim 0 Call.work

/-- A step that starts no call. -/
def Op.goesOn : Op C K → Bool
  | .enter _ _ => false
  | _ => true

omit [LinearOrder L] in
theorem work_set [Fintype C] {call : Option (Call K L)} (h : call.elim 0 Call.work < (s.call c).elim 0 Call.work) :
    (s.set c call).work < s.work := by
  refine Finset.sum_lt_sum (fun d _ => ?_) ⟨c, Finset.mem_univ c, ?_⟩
  · by_cases hd : d = c
    · rw [hd, set_call_self]
      exact Nat.le_of_lt h
    · rw [set_call_ne _ hd]
  · rw [set_call_self]
    exact h

/-- A call that has all its locks goes on. -/
theorem progress_inside [Fintype C] (hc : s.call c = some k) (hin : k.waits = []) :
    ∃ (op : Op C K) (s' : State C K L), op.goesOn = true ∧ SpinLocks.step P s op = some s' ∧ s'.work < s.work := by
  obtain ⟨kind, held, waits, spins, unlocks⟩ := k
  cases hin
  cases unlocks with
  | nil =>
    refine ⟨.leave c, s.set c none, rfl, by simp only [step, hc], work_set ?_⟩
    rw [hc]
    exact Nat.succ_pos _
  | cons l unlocks =>
    refine ⟨.unlock c, _, rfl, by simp only [step, hc]; rfl, work_set (s := s.setWord l false) ?_⟩
    have hcall : (s.setWord l false).call c = s.call c := rfl
    rw [hcall, hc]
    simp only [Option.elim_some, Call.work, List.length_cons, List.length_nil]
    omega

/-- A call that waits for a free lock goes on. -/
theorem progress_free [Fintype C] {waits : List L} (hc : s.call c = some k) (hwaits : k.waits = l :: waits)
    (hfree : s.word l = false) :
    ∃ (op : Op C K) (s' : State C K L), op.goesOn = true ∧ SpinLocks.step P s op = some s' ∧ s'.work < s.work := by
  obtain ⟨kind, held, waits', spins, unlocks⟩ := k
  cases hwaits
  cases spins with
  | true =>
    refine ⟨.look c, s.set c (some ⟨kind, held, l :: waits, false, unlocks⟩), rfl, ?_, work_set ?_⟩
    · simp only [step, hc]
      rw [if_neg (by rw [hfree]; decide)]
    · rw [hc]
      simp only [Option.elim_some, Call.work, if_true, Bool.false_eq_true, if_false]
      omega
  | false =>
    refine ⟨.exchange c, (s.setWord l true).set c (some ⟨kind, held ++ [l], waits, false, unlocks⟩), rfl, ?_, work_set ?_⟩
    · simp only [step, hc]
      rw [if_neg (by rw [hfree]; decide)]
    · have hcall : (s.setWord l true).call c = s.call c := rfl
      rw [hcall, hc]
      simp only [Option.elim_some, Call.work, List.length_cons]
      omega

/-- The lock a processor waits for; `⊥` when it waits for none. -/
def State.wanted (s : State C K L) (c : C) : WithBot L := (s.call c).elim ⊥ fun k => k.waits.head?.elim ⊥ WithBot.some

omit [DecidableEq C] [LinearOrder L] in
theorem wanted_of_call {waits : List L} (hc : s.call c = some k) (hw : k.waits = l :: waits) : s.wanted c = (l : WithBot L) := by
  rw [State.wanted, hc, Option.elim_some, hw]
  rfl

/-- **Somebody can go on**: a processor that has all its locks, or else the one that waits for the greatest lock that is waited
for, as whoever had that one would wait for a greater one. -/
theorem Inv.progress [Fintype C] (h : Inv P s) (hbusy : s.call c = some k) :
    ∃ (op : Op C K) (s' : State C K L), op.goesOn = true ∧ SpinLocks.step P s op = some s' ∧ s'.work < s.work := by
  by_cases hin : ∃ d k', s.call d = some k' ∧ k'.waits = []
  · obtain ⟨d, k', hd, hnil⟩ := hin
    exact progress_inside hd hnil
  · have hwait : ∀ d k', s.call d = some k' → ∃ l waits, k'.waits = l :: waits := by
      intro d k' hd
      cases hw : k'.waits with
      | nil => exact absurd ⟨d, k', hd, hw⟩ hin
      | cons l waits => exact ⟨l, waits, rfl⟩
    obtain ⟨d, -, hmax⟩ := Finset.exists_max_image Finset.univ s.wanted ⟨c, Finset.mem_univ c⟩
    have hbusy' : ∃ k', s.call d = some k' := by
      cases hd : s.call d with
      | some k' => exact ⟨k', rfl⟩
      | none =>
        obtain ⟨l, waits, hw⟩ := hwait c k hbusy
        have hle := hmax c (Finset.mem_univ c)
        have hbot : s.wanted d = ⊥ := by
          rw [State.wanted, hd]
          rfl
        rw [hbot, wanted_of_call hbusy hw, le_bot_iff] at hle
        exact absurd hle (WithBot.coe_ne_bot)
    obtain ⟨k', hd⟩ := hbusy'
    obtain ⟨l, waits, hw⟩ := hwait d k' hd
    refine progress_free hd hw (Bool.eq_false_iff.2 fun hword => ?_)
    obtain ⟨e, he⟩ := (h.word l).1 hword
    cases hcall : s.call e with
    | none =>
      rw [State.held, hcall] at he
      cases he
    | some ke =>
      rw [held_of_call hcall] at he
      obtain ⟨m, waits', hwe⟩ := hwait e ke hcall
      have hlt : l < m := by
        have hascending := (h.calls e ke hcall).ascending
        rw [hwe] at hascending
        exact (List.pairwise_append.1 hascending).2.2 l he m List.mem_cons_self
      have hle := hmax e (Finset.mem_univ e)
      rw [wanted_of_call hcall hwe, wanted_of_call hd hw, WithBot.coe_le_coe] at hle
      exact absurd hlt (not_lt.2 hle)

/-- **No deadlock**: from whatever state has been reached, all calls can be brought to their end. -/
theorem Inv.finish [Fintype C] : ∀ {n : Nat} {s : State C K L}, Inv P s → s.work ≤ n →
    ∃ ops s', (machine C P).run s ops = some s' ∧ (∀ op ∈ ops, op.goesOn = true) ∧ ∀ c, s'.call c = none := by
  intro n
  induction n with
  | zero =>
    intro s h hn
    refine ⟨[], s, rfl, (fun op hop => by cases hop), fun c => ?_⟩
    cases hc : s.call c with
    | none => rfl
    | some k =>
      obtain ⟨-, s', -, -, hlt⟩ := h.progress hc
      omega
  | succ n ih =>
    intro s h hn
    by_cases hidle : ∀ c, s.call c = none
    · exact ⟨[], s, rfl, (fun op hop => by cases hop), hidle⟩
    · obtain ⟨c, hc⟩ := not_forall.1 hidle
      obtain ⟨k, hc⟩ := Option.ne_none_iff_exists'.1 hc
      obtain ⟨op, s₁, hop, hstep, hlt⟩ := h.progress hc
      obtain ⟨ops, s', hrun, hops, hall⟩ := ih (h.step hstep) (by omega)
      refine ⟨op :: ops, s', (machine C P).run_cons.2 ⟨s₁, hstep, hrun⟩, fun op' hop' => ?_, hall⟩
      rcases List.mem_cons.1 hop' with rfl | hop'
      · exact hop
      · exact hops op' hop'

end SpinLocks
end Lib
end Pico
