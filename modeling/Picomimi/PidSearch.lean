import Picomimi.Pid
/-!
# PidSearch — the circular search of `alloc_pid`

The loop of `alloc_pid` ends at a free PID or on its return to the start.  It wraps to `RESERVED_PIDS`, so a start below
that is never met again, and with every later PID taken the loop would not end.  `Ahead` says why that does not happen:
as long as `last_pid` has not reached `RESERVED_PIDS`, no PID from there on was ever handed out.
-/
namespace Pico
namespace Pid

open Lib

/-- The loop of `alloc_pid`, with no outer result while it has not ended in `fuel` turns. -/
def allocLoop (bitmap : Nat → Bool) (start : Nat) : Nat → Nat → Option (Option Nat)
  | 0, _ => none
  | fuel + 1, pid =>
    if !bitmap pid then some (some pid)
    else if nextPid pid = start then some none
    else allocLoop bitmap start fuel (nextPid pid)

/-- `alloc_pid`, in `fuel` turns of its loop; a missing PID is -1. -/
def allocPidIn (s : State) (fuel : Nat) : Option (Option Nat × State) :=
  match allocLoop s.pidBitmap (nextPid s.lastPid) fuel (nextPid s.lastPid) with
  | none => none
  | some none => some (none, s)
  | some (some pid) => some (some pid, { s with pidBitmap := Function.update s.pidBitmap pid true, lastPid := pid })

inductive PidOp where
  | alloc (fuel : Nat)
  | free (pid : Nat)

/-- A call of `alloc_pid` that has returned, or one of `free_pid`. -/
def searchStep (s : State) : PidOp → Option State
  | .alloc fuel => (allocPidIn s fuel).map Prod.snd
  | .free pid => some (freePid s pid)

/-- At boot at most the PIDs 0 and 1 are taken, and none was handed out. -/
def searchMachine : Machine State PidOp where
  init s := s.lastPid = 0 ∧ ∀ pid, 2 ≤ pid → s.pidBitmap pid = false
  step := searchStep

/-- **Ahead of a start below `RESERVED_PIDS` everything is free** from there on. -/
def Ahead (s : State) : Prop :=
  s.lastPid < pidMax ∧ (nextPid s.lastPid < reservedPids → ∀ pid, reservedPids ≤ pid → s.pidBitmap pid = false)

variable {bitmap : Nat → Bool} {start pid : Nat} {s s' : State}

/-- A loop that ended gives the result of the bounded one. -/
theorem allocLoop_some : ∀ {fuel pid : Nat} {r : Option Nat}, allocLoop bitmap start fuel pid = some r →
    allocFrom bitmap start fuel pid = r
  | fuel + 1, pid, r, h => by
    unfold allocLoop at h
    unfold allocFrom
    by_cases hb : (!bitmap pid) = true
    · rw [if_pos hb] at h ⊢
      exact Option.some.inj h
    · rw [if_neg hb] at h ⊢
      by_cases hn : nextPid pid = start
      · rw [if_pos hn] at h ⊢
        exact Option.some.inj h
      · rw [if_neg hn] at h ⊢
        exact allocLoop_some h

/-- More turns change nothing. -/
theorem allocLoop_mono : ∀ {fuel fuel' pid : Nat} {r : Option Nat}, allocLoop bitmap start fuel pid = some r →
    fuel ≤ fuel' → allocLoop bitmap start fuel' pid = some r
  | fuel + 1, fuel' + 1, pid, r, h, hle => by
    unfold allocLoop at h ⊢
    by_cases hb : (!bitmap pid) = true
    · rw [if_pos hb] at h ⊢
      exact h
    · rw [if_neg hb] at h ⊢
      by_cases hn : nextPid pid = start
      · rw [if_pos hn] at h ⊢
        exact h
      · rw [if_neg hn] at h ⊢
        exact allocLoop_mono h (Nat.le_of_succ_le_succ hle)

/-- **The loop ends** when it comes by a free PID or back to its start. -/
theorem allocLoop_ends : ∀ {n pid : Nat}, (bitmap (nextPid^[n] pid) = false ∨ nextPid (nextPid^[n] pid) = start) →
    ∃ r, allocLoop bitmap start (n + 1) pid = some r
  | n, pid, h => by
    unfold allocLoop
    by_cases hb : (!bitmap pid) = true
    · rw [if_pos hb]
      exact ⟨_, rfl⟩
    · rw [if_neg hb]
      by_cases hn : nextPid pid = start
      · rw [if_pos hn]
        exact ⟨_, rfl⟩
      · rw [if_neg hn]
        cases n with
        | zero =>
          rcases h with h | h
          · rw [show bitmap pid = false from h] at hb
            exact absurd rfl hb
          · exact absurd h hn
        | succ n => exact allocLoop_ends h

/-- From `RESERVED_PIDS` on, the search comes back to its start after `pidSpace` turns. -/
theorem nextPid_return (hlo : reservedPids ≤ start) (hhi : start < pidMax) : nextPid^[pidSpace] start = start := by
  have hsplit : pidSpace = start - reservedPids + (pidMax - start) := by
    unfold pidSpace
    omega
  rw [hsplit, nextPid_iterate_wrap hhi (by omega), Nat.add_sub_cancel' hlo]

/-- **`alloc_pid` ends**, after `PID_MAX` turns at most. -/
theorem Ahead.ends (h : Ahead s) :
    ∃ r, allocLoop s.pidBitmap (nextPid s.lastPid) pidMax (nextPid s.lastPid) = some r := by
  have hb := nextPid_bounds s.lastPid
  by_cases hlo : nextPid s.lastPid < reservedPids
  · -- the first PID behind the reserved ones is free
    have hfree : s.pidBitmap (nextPid^[reservedPids - nextPid s.lastPid] (nextPid s.lastPid)) = false := by
      rw [nextPid_iterate _ (by unfold reservedPids pidMax at *; omega)]
      exact h.2 hlo _ (by omega)
    obtain ⟨r, hr⟩ : ∃ r, allocLoop s.pidBitmap (nextPid s.lastPid) _ (nextPid s.lastPid) = some r :=
      allocLoop_ends (.inl hfree)
    exact ⟨r, allocLoop_mono hr (by unfold reservedPids pidMax at *; omega)⟩
  · have hret : nextPid (nextPid^[pidSpace - 1] (nextPid s.lastPid)) = nextPid s.lastPid := by
      rw [← Function.iterate_succ_apply' nextPid]
      exact nextPid_return (by omega) hb.2
    obtain ⟨r, hr⟩ : ∃ r, allocLoop s.pidBitmap (nextPid s.lastPid) _ (nextPid s.lastPid) = some r :=
      allocLoop_ends (.inr hret)
    exact ⟨r, allocLoop_mono hr (by decide)⟩

/-- A search above the reserved PIDs stays there. -/
theorem allocFrom_ge : ∀ {fuel pid q : Nat}, reservedPids ≤ pid → allocFrom bitmap start fuel pid = some q →
    reservedPids ≤ q
  | fuel + 1, pid, q, hpid, h => by
    have hnext : reservedPids ≤ nextPid pid := by
      unfold nextPid
      split <;> omega
    unfold allocFrom at h
    by_cases hb : (!bitmap pid) = true
    · rw [if_pos hb] at h
      exact Option.some.inj h ▸ hpid
    · rw [if_neg hb] at h
      by_cases hn : nextPid pid = start
      · rw [if_pos hn] at h
        cases h
      · rw [if_neg hn] at h
        exact allocFrom_ge hnext h

/-- **What a call that found a PID did**: it took a free one, ahead of the start if that was a reserved PID. -/
theorem allocPidIn_some {fuel : Nat} (h : allocPidIn s fuel = some (some pid, s')) :
    s.pidBitmap pid = false ∧ pid < pidMax ∧ (reservedPids ≤ nextPid s.lastPid → reservedPids ≤ pid) ∧
      s' = { s with pidBitmap := Function.update s.pidBitmap pid true, lastPid := pid } := by
  unfold allocPidIn at h
  cases hloop : allocLoop s.pidBitmap (nextPid s.lastPid) fuel (nextPid s.lastPid) with
  | none =>
    rw [hloop] at h
    cases h
  | some r =>
    rw [hloop] at h
    cases r with
    | none => cases h
    | some q =>
      cases h
      have hfrom := allocLoop_some hloop
      obtain ⟨hfree, hlt⟩ := allocFrom_spec (nextPid_bounds s.lastPid).2 hfrom
      exact ⟨hfree, hlt, fun hge => allocFrom_ge hge hfrom, rfl⟩

theorem allocPidIn_none {fuel : Nat} (h : allocPidIn s fuel = some (none, s')) :
    s' = s ∧ allocLoop s.pidBitmap (nextPid s.lastPid) fuel (nextPid s.lastPid) = some none := by
  unfold allocPidIn at h
  cases hloop : allocLoop s.pidBitmap (nextPid s.lastPid) fuel (nextPid s.lastPid) with
  | none =>
    rw [hloop] at h
    cases h
  | some r =>
    rw [hloop] at h
    cases r with
    | none =>
      cases h
      exact ⟨rfl, rfl⟩
    | some q => cases h

/-- A PID taken below `RESERVED_PIDS` leaves the ones from there on as they were. -/
theorem Ahead.alloc (h : Ahead s) {fuel : Nat} {r : Option Nat} (hs : allocPidIn s fuel = some (r, s')) : Ahead s' := by
  cases r with
  | none => exact (allocPidIn_none hs).1 ▸ h
  | some pid =>
    obtain ⟨-, hlt, hge, rfl⟩ := allocPidIn_some hs
    refine ⟨hlt, fun hnext q hq => ?_⟩
    have hpid : pid < reservedPids := by
      have hnext' : nextPid pid < reservedPids := hnext
      unfold nextPid at hnext'
      split at hnext' <;> omega
    have hstart : nextPid s.lastPid < reservedPids := by
      by_contra hge'
      exact Nat.not_le_of_lt hpid (hge (Nat.le_of_not_lt hge'))
    have hne : q ≠ pid := by omega
    simp only [Function.update_of_ne hne]
    exact h.2 hstart q hq

theorem Ahead.free (h : Ahead s) (pid : Nat) : Ahead (freePid s pid) := by
  unfold freePid
  split
  · exact h
  · refine ⟨h.1, fun hnext q hq => ?_⟩
    simp only [Function.update_apply]
    split
    · rfl
    · exact h.2 hnext q hq

theorem Ahead.step (h : Ahead s) {a : PidOp} (hs : searchStep s a = some s') : Ahead s' := by
  cases a with
  | alloc fuel =>
    obtain ⟨⟨r, t⟩, ht, rfl⟩ := Option.map_eq_some_iff.1 hs
    exact h.alloc ht
  | free pid =>
    cases hs
    exact h.free pid

theorem Ahead.init (h : searchMachine.init s) : Ahead s := by
  obtain ⟨hlast, hfree⟩ := h
  refine ⟨by rw [hlast]; decide, fun _ pid hpid => hfree pid (Nat.le_trans (by decide) hpid)⟩

/-- **`alloc_pid` is a correct circular search** in every state its own calls and those of `free_pid` lead to: it ends,
takes a PID that was free and no other, and fails only with every PID from `RESERVED_PIDS` on taken. -/
theorem allocPid_of_run (l : List PidOp) (s s' : State) (h0 : searchMachine.init s)
    (h : searchMachine.run s l = some s') :
    ∃ r t, (∀ fuel, pidMax ≤ fuel → allocPidIn s' fuel = some (r, t)) ∧
      (∀ pid, r = some pid → s'.pidBitmap pid = false ∧
        t = { s' with pidBitmap := Function.update s'.pidBitmap pid true, lastPid := pid }) ∧
      (r = none → t = s' ∧ ∀ pid, reservedPids ≤ pid → pid < pidMax → s'.pidBitmap pid = true) := by
  have ha : Ahead s' := searchMachine.run_invariant (fun _ _ _ hP hs => Ahead.step hP hs) l s s' (Ahead.init h0) h
  obtain ⟨r, hr⟩ := ha.ends
  have hend : ∃ t, ∀ fuel, pidMax ≤ fuel → allocPidIn s' fuel = some (r, t) := by
    cases r with
    | none => exact ⟨s', fun fuel hf => by unfold allocPidIn; rw [allocLoop_mono hr hf]⟩
    | some pid => exact ⟨_, fun fuel hf => by unfold allocPidIn; rw [allocLoop_mono hr hf]⟩
  obtain ⟨t, ht⟩ := hend
  have hcall := ht pidMax (Nat.le_refl _)
  refine ⟨r, t, ht, ?_, ?_⟩
  · rintro pid rfl
    obtain ⟨hfree, -, -, htaken⟩ := allocPidIn_some hcall
    exact ⟨hfree, htaken⟩
  · rintro rfl
    have hb := nextPid_bounds s'.lastPid
    obtain ⟨rfl, hloop⟩ := allocPidIn_none hcall
    exact ⟨rfl, fun pid hlo hhi => allocFrom_none_full hb.1 hb.2 (allocLoop_some hloop) hlo hhi⟩

/-- Two PIDs are taken after boot, and a reserved one is not given back. -/
theorem allocPid_of_run_two : ∃ s', searchMachine.run boot [.alloc 3, .alloc 3, .free 2] = some s' ∧
    ∃ r t, (∀ fuel, pidMax ≤ fuel → allocPidIn s' fuel = some (r, t)) ∧
      (∀ pid, r = some pid → s'.pidBitmap pid = false ∧
        t = { s' with pidBitmap := Function.update s'.pidBitmap pid true, lastPid := pid }) ∧
      (r = none → t = s' ∧ ∀ pid, reservedPids ≤ pid → pid < pidMax → s'.pidBitmap pid = true) := by
  have hrun : (searchMachine.run boot [.alloc 3, .alloc 3, .free 2]).isSome = true := by decide +kernel
  have h0 : searchMachine.init boot := ⟨rfl, fun pid hpid => decide_eq_false (Nat.not_lt_of_le hpid)⟩
  obtain ⟨s', h⟩ := Option.isSome_iff_exists.1 hrun
  exact ⟨s', h, allocPid_of_run _ boot s' h0 h⟩

end Pid
end Pico
