import Picomimi.FdLowest
/-!
# Cloexec — which descriptors an exec closes

`do_execve` goes by the `flags` of the table's 64 entries and closes the file with `filp_close`, whatever its `f_count`.
`dup3`, `F_DUPFD_CLOEXEC` and `F_SETFD` set the flag of an entry, possibly one beyond the table; `open` and `pipe2` put
`O_CLOEXEC` into `f_flags` only.  The state keeps what was last asked for each descriptor (`req`), and `law_iff_runOk`
says which runs close what they should.
-/
namespace Pico
namespace Cloexec

open Lib Files
open FdLowest (pipeMade)

/-- The tables, what was last asked for a descriptor, and `f_pos`. -/
structure State where
  base : Files.State
  req : Nat → Int → Bool
  pos : Nat → Nat

inductive Label where
  | opn (k : Nat) (new : Option Nat) (cloexec : Bool)
  | pipe (k : Nat) (pi rf wf : Option Nat) (cloexec : Bool)
  | call (l : Files.Label)
  | move (f pos : Nat)           -- `read`, `write` and `lseek`

def setReq (req : Nat → Int → Bool) (k : Nat) (fd : Int) (b : Bool) : Nat → Int → Bool :=
  Function.update req k (Function.update (req k) fd b)

/-- The descriptors of a pipe. -/
def pipeFds (s : Files.State) (k : Nat) (pi rf wf : Nat) : List Nat :=
  match getUnusedFd (pipeMade s pi rf wf) k with
  | (none, _) => []
  | (some rfd, s) =>
    match getUnusedFd (fdInstall s k rfd rf) k with
    | (none, _) => []
    | (some wfd, _) => [rfd, wfd]

/-- **What a call asks for the descriptor it makes**: `open`, `pipe2`, `dup3` and `F_DUPFD_CLOEXEC` as their flags say,
`dup`, `dup2` and `F_DUPFD` nothing.  `F_SETFD` changes it, and a child takes it over. -/
def asked (s : State) : Label → Nat → Int → Bool
  | .opn k new cloexec =>
    match (sysOpen s.base k new).1 with
    | some (.ofNat fd) => setReq s.req k fd cloexec
    | _ => s.req
  | .pipe k (some pi) (some rf) (some wf) cloexec =>
    (pipeFds s.base k pi rf wf).foldl (fun (req : Nat → Int → Bool) (fd : Nat) => setReq req k fd cloexec) s.req
  | .call (.dup k oldfd) =>
    if (sysDup s.base k oldfd).1 < 0 then s.req else setReq s.req k (sysDup s.base k oldfd).1 false
  | .call (.dup2 k oldfd newfd) =>
    if oldfd = newfd ∨ (sysDup2 s.base k oldfd newfd).1 < 0 then s.req else setReq s.req k newfd false
  | .call (.dup3 k oldfd newfd cloexec) =>
    if (sysDup3 s.base k oldfd newfd cloexec).1 < 0 then s.req else setReq s.req k newfd cloexec
  | .call (.dupfd k fd arg cloexec) =>
    if (sysDupfd s.base k fd arg cloexec).1 < 0 then s.req
    else setReq s.req k (sysDupfd s.base k fd arg cloexec).1 cloexec
  | .call (.setfd k fd cloexec) => if (sysSetfd s.base k fd cloexec).1 < 0 then s.req else setReq s.req k fd cloexec
  | .call (.fork k mem _) => if mem then Function.update s.req s.base.ntasks (s.req k) else s.req
  | _ => s.req

/-- The call on the tables. -/
def Label.toFiles : Label → Option Files.Label
  | .opn k new _ => some (.opn k new)
  | .pipe k pi rf wf _ => some (.pipe k pi rf wf)
  | .call (.opn _ _) | .call (.pipe _ _ _ _) => none       -- with their flags above
  | .call l => some l
  | .move _ _ => none

def step (s : State) (a : Label) : Option State :=
  match a with
  | .move f pos => some { s with pos := Function.update s.pos f pos }
  | a => a.toFiles.bind fun l => (fileStep s.base l).map fun b => { s with base := b, req := asked s a }

def machine : Machine State Label where
  init s := fileMachine.init s.base ∧ ∀ k i, s.req k i = false
  step := step

/-! ## The law -/

/-- The position of an open file; a file that is freed has none. -/
def filePos (b : Files.State) (pos : Nat → Nat) (f : Nat) : Option Nat := (b.pool.count f).map fun _ => pos f

/-- **What an exec of task `k` should leave**: the descriptors it was asked to close are closed, and all others of all
tasks refer to the same open files, at the same positions. -/
structure ExecLaw (s : State) (k : Nat) (t : Files.State) : Prop where
  closes : ∀ i, (s.base.entry k i).file ≠ none → s.req k i = true → (t.entry k i).file = none
  keeps : ∀ j i f, InTable i → (s.base.entry j i).file = some f → ¬(j = k ∧ s.req k i = true) →
    (t.entry j i).file = some f ∧ filePos t s.pos f = filePos s.base s.pos f

def Law (s : State) : Label → Prop
  | .call (.exec k) => ExecLaw s k (execClose s.base k)
  | _ => True

/-- **Each request is noted in a flag of the table, and no file that goes with one is used by a descriptor that
stays.** -/
structure ExecFits (s : State) (k : Nat) : Prop where
  noted : ∀ i, (s.base.entry k i).file ≠ none → s.req k i = true → InTable i ∧ (s.base.entry k i).cloexec = true
  unshared : ∀ i f, InTable i → (s.base.entry k i).file = some f → (s.base.entry k i).cloexec = true →
    (s.base.pool.count f).isSome → ∀ j i', InTable i' → (s.base.entry j i').file = some f → j = k ∧ s.req k i' = true

def Fits (s : State) : Label → Prop
  | .call (.exec k) => ExecFits s k
  | _ => True

/-! ## What exec does -/

variable {s s' : Files.State} {req : Nat → Int → Bool} {k j f : Nat} {i : Int} {e : FdEntry}

/-- The entries of task `k` that exec closes. -/
def Flagged (s : Files.State) (k : Nat) (i : Int) (f : Nat) : Prop :=
  (s.entry k i).file = some f ∧ (s.entry k i).cloexec = true

theorem entry_setSlot_ne (h : j ≠ k) (s : Files.State) (i i' : Int) (e : FdEntry) :
    (s.setSlot k i e).entry j i' = s.entry j i' := by
  unfold State.setSlot
  cases s.files k with
  | none => rfl
  | some t => simp only [State.entry, State.setTable, Function.update_of_ne h]

/-- One turn of the loop. -/
theorem execSlot_spec (s : Files.State) (k n : Nat) :
    (execSlot s k n = s ∧ ∀ f, ¬Flagged s k n f) ∨ ∃ f, Flagged s k n f ∧
      (execSlot s k n).entry k n = .empty ∧
      (∀ (j : Nat) (i : Int), ¬(j = k ∧ i = n) → (execSlot s k n).entry j i = s.entry j i) ∧
      (execSlot s k n).pool = s.pool.free f := by
  unfold execSlot
  cases hf : (s.entry k n).file with
  | none => exact .inl ⟨rfl, fun f h => nomatch hf.symm.trans h.1⟩
  | some f =>
    dsimp only
    by_cases hc : (s.entry k n).cloexec = true
    · have hk : ((filpClose s f).files k).isSome := by
        rw [filpClose_files]
        unfold State.entry at hf
        cases ht : s.files k with
        | none => rw [ht] at hf; nomatch hf
        | some t => rfl
      rw [if_pos hc]
      refine .inr ⟨f, ⟨hf, hc⟩, ?_, fun j i hne => ?_, by rw [setSlot_pool, filpClose_pool]⟩
      · rw [entry_setSlot hk, if_pos rfl]
      · by_cases hj : j = k
        · subst hj
          rw [entry_setSlot hk, if_neg fun hi => hne ⟨rfl, hi⟩, filpClose_entry]
        · rw [entry_setSlot_ne hj, filpClose_entry]
    · rw [if_neg hc]
      exact .inl ⟨rfl, fun f h => hc h.2⟩

theorem free_count (p : Pool) (f g : Nat) : (p.free f).count g = if g = f then none else p.count g := by
  by_cases h : g = f
  · subst h
    rw [if_pos rfl, Pool.free_count_self]
  · rw [if_neg h, Pool.free_count_of_ne _ h]

/-- The entries `C` of task `k` were closed between two states, and their files freed. -/
structure Closed (s t : Files.State) (k : Nat) (C : Int → Prop) : Prop where
  gone : ∀ i, C i → t.entry k i = .empty
  kept : ∀ j i, ¬(j = k ∧ C i) → t.entry j i = s.entry j i
  freed : ∀ f, (∃ i, C i ∧ (s.entry k i).file = some f) → t.pool.count f = none
  alive : ∀ f, ¬(∃ i, C i ∧ (s.entry k i).file = some f) → t.pool.count f = s.pool.count f

/-- **The loop over some of the entries** closes those of them that are flagged. -/
theorem execSlots_closed (k : Nat) : ∀ (l : List Nat) (s : Files.State),
    Closed s (l.foldl (fun s n => execSlot s k n) s) k fun i => (∃ n ∈ l, i = (n : Int)) ∧ ∃ f, Flagged s k i f
  | [], s => ⟨by simp, fun _ _ _ => rfl, by simp, fun _ _ => rfl⟩
  | m :: l, s => by
    have ih := execSlots_closed k l (execSlot s k m)
    have hcons : ∀ i : Int, (∃ n ∈ m :: l, i = (n : Int)) ↔ i = m ∨ ∃ n ∈ l, i = (n : Int) := by simp
    rw [List.foldl_cons]
    simp only [hcons]
    rcases execSlot_spec s k m with ⟨he, hno⟩ | ⟨f, hf, hgone, hkept, hpool⟩
    · rw [he] at ih ⊢
      have hC : ∀ i : Int, ((i = m ∨ ∃ n ∈ l, i = (n : Int)) ∧ ∃ f, Flagged s k i f) ↔
          (∃ n ∈ l, i = (n : Int)) ∧ ∃ f, Flagged s k i f := by
        refine fun i => and_congr_left fun ⟨g, hg⟩ => or_iff_right ?_
        rintro rfl
        exact hno g hg
      simp only [hC]
      exact ih
    · -- entry `m` is closed now, and the others are as they were
      have hm : ∀ g, ¬Flagged (execSlot s k m) k m g := by
        intro g hg
        rw [Flagged, hgone] at hg
        nomatch hg.1
      have hother : ∀ i : Int, i ≠ m → (execSlot s k m).entry k i = s.entry k i := fun i hi => hkept k i fun h => hi h.2
      have hflag : ∀ i : Int, i ≠ m → ∀ g, Flagged (execSlot s k m) k i g ↔ Flagged s k i g := by
        intro i hi g
        rw [Flagged, hother i hi, Flagged]
      refine ⟨fun i hi => ?_, fun j i hi => ?_, fun g hg => ?_, fun g hg => ?_⟩
      · obtain ⟨hmem, g, hg⟩ := hi
        by_cases him : i = m
        · rw [him, ih.kept k m fun h => h.2.2.elim hm, hgone]
        · exact ih.gone i ⟨hmem.resolve_left him, g, (hflag i him g).2 hg⟩
      · rw [ih.kept j i fun h => ?_, hkept j i fun h => hi ⟨h.1, .inl h.2, f, h.2 ▸ hf⟩]
        obtain ⟨hj, hmem, g, hg⟩ := h
        have him : i ≠ m := by rintro rfl; exact hm g hg
        exact hi ⟨hj, .inr hmem, g, (hflag i him g).1 hg⟩
      · by_cases hl : ∃ i : Int, ((∃ n ∈ l, i = (n : Int)) ∧ ∃ f, Flagged (execSlot s k m) k i f) ∧
            ((execSlot s k m).entry k i).file = some g
        · exact ih.freed g hl
        · -- no later entry has it, so it is the one of `m`
          rw [ih.alive g hl, hpool, free_count, if_pos]
          obtain ⟨i, ⟨hmem, x, hx⟩, hgi⟩ := hg
          by_cases him : i = m
          · exact Option.some.inj (hgi.symm.trans (him ▸ hf.1))
          · exact absurd ⟨i, ⟨hmem.resolve_left him, x, (hflag i him x).2 hx⟩, by rw [hother i him, hgi]⟩ hl
      · rw [ih.alive g, hpool, free_count, if_neg]
        · rintro rfl
          exact hg ⟨m, ⟨.inl rfl, g, hf⟩, hf.1⟩
        · rintro ⟨i, ⟨hmem, x, hx⟩, hgi⟩
          have him : i ≠ m := by rintro rfl; exact hm x hx
          exact hg ⟨i, ⟨.inr hmem, x, (hflag i him x).1 hx⟩, by rw [← hother i him, hgi]⟩

/-- **Exec closes the flagged entries of the table, and frees their files.** -/
theorem execClose_closed (s : Files.State) (k : Nat) :
    Closed s (execClose s k) k fun i => InTable i ∧ ∃ f, Flagged s k i f := by
  have h := execSlots_closed k (List.range maxFds) s
  have hin : ∀ i : Int, (∃ n ∈ List.range maxFds, i = (n : Int)) ↔ InTable i := by
    refine fun i => ⟨?_, fun hi => ?_⟩
    · rintro ⟨n, hn, rfl⟩
      exact inTable_iff.2 (List.mem_range.1 hn)
    · obtain ⟨n, rfl, hn⟩ := hi.exists_nat
      exact ⟨n, List.mem_range.2 hn, rfl⟩
  simp only [hin] at h
  exact h

/-! ## The flags and the requests -/

/-- Every flag in the table of a living task stands for a request. -/
def Recorded (s : Files.State) (req : Nat → Int → Bool) : Prop :=
  ∀ k, s.zombie k = false → ∀ i, InTable i → (s.entry k i).cloexec = true → (s.entry k i).file ≠ none ∧ req k i = true

/-- **An exec obeys the law exactly when the requests are noted and the files not shared.** -/
theorem execLaw_iff {s : State} (hr : Recorded s.base s.req) (hl : s.base.Live k) :
    ExecLaw s k (execClose s.base k) ↔ ExecFits s k := by
  have hc := execClose_closed s.base k
  constructor
  · intro h
    refine ⟨fun i hf hreq => ?_, fun i f hi hf hflag halive j i' hi' hf' => ?_⟩
    · have hnone := h.closes i hf hreq
      by_contra hno
      rw [hc.kept k i fun hC => hno ⟨hC.2.1, hC.2.2.elim fun _ hx => hx.2⟩] at hnone
      exact hf hnone
    · by_contra hno
      have hpos := (h.keeps j i' f hi' hf' hno).2
      obtain ⟨c, hcount⟩ := Option.isSome_iff_exists.1 halive
      rw [filePos, filePos, hcount, hc.freed f ⟨i, ⟨hi, f, hf, hflag⟩, hf⟩] at hpos
      nomatch hpos
  · intro h
    refine ⟨fun i hf hreq => ?_, fun j i f hi hf hno => ?_⟩
    · obtain ⟨hi, hflag⟩ := h.noted i hf hreq
      obtain ⟨f, hf⟩ := Option.ne_none_iff_exists'.1 hf
      rw [hc.gone i ⟨hi, f, hf, hflag⟩]
      rfl
    · have hkept : ¬(j = k ∧ InTable i ∧ ∃ f, Flagged s.base k i f) := by
        rintro ⟨rfl, -, x, -, hx⟩
        exact hno ⟨rfl, (hr j hl.2 i hi hx).2⟩
      refine ⟨by rw [hc.kept j i hkept, hf], ?_⟩
      unfold filePos
      by_cases hfree : ∃ i, (InTable i ∧ ∃ f, Flagged s.base k i f) ∧ (s.base.entry k i).file = some f
      · obtain ⟨x, ⟨hx, g, hg⟩, hfx⟩ := hfree
        cases hcount : s.base.pool.count f with
        | none => rw [hc.freed f ⟨x, ⟨hx, g, hg⟩, hfx⟩]
        | some c => exact absurd (h.unshared x f hx hfx hg.2 (by rw [hcount]; rfl) j i hi hf) hno
      · rw [hc.alive f hfree]

/-! ## The calls keep them -/

theorem setSlot_zombie (s : Files.State) (k : Nat) (i : Int) (e : FdEntry) : (s.setSlot k i e).zombie = s.zombie := by
  unfold State.setSlot
  split <;> rfl

theorem setReq_apply (req : Nat → Int → Bool) (k : Nat) (fd : Int) (b : Bool) (j : Nat) (i : Int) :
    setReq req k fd b j i = if j = k ∧ i = fd then b else req j i := by
  by_cases hj : j = k
  · subst hj
    simp only [setReq, Function.update_self, Function.update_apply, true_and]
  · simp only [setReq, Function.update_of_ne hj, hj, false_and, if_false]

theorem Recorded.congr (h : Recorded s req) (he : ∀ j i, s'.entry j i = s.entry j i) (hz : s'.zombie = s.zombie) :
    Recorded s' req := by
  unfold Recorded
  simp only [he, hz]
  exact h

/-- An entry is stored with what is asked for it. -/
theorem Recorded.put (h : Recorded s req) (k : Nat) (i : Int) {e : FdEntry} {b : Bool}
    (he : InTable i → e.cloexec = true → e.file ≠ none ∧ b = true) : Recorded (s.setSlot k i e) (setReq req k i b) := by
  intro j hz i' hi' hflag
  rw [setSlot_zombie] at hz
  rw [setReq_apply]
  by_cases hj : j = k
  · subst hj
    cases ht : s.files j with
    | none =>
      rw [State.setSlot, ht, State.entry] at hflag
      simp only [ht] at hflag
      cases hflag
    | some t =>
      rw [entry_setSlot (by rw [ht]; rfl)] at hflag ⊢
      by_cases hii : i' = i
      · subst hii
        rw [if_pos rfl] at hflag ⊢
        rw [if_pos ⟨rfl, rfl⟩]
        exact he hi' hflag
      · rw [if_neg hii] at hflag ⊢
        rw [if_neg fun hx => hii hx.2]
        exact h j hz i' hi' hflag
  · rw [entry_setSlot_ne hj] at hflag ⊢
    rw [if_neg fun hx => hj hx.1]
    exact h j hz i' hi' hflag

theorem setReq_self (req : Nat → Int → Bool) (k : Nat) (fd : Int) : setReq req k fd (req k fd) = req := by
  simp only [setReq, Function.update_eq_self]

/-- An entry is stored without its flag. -/
theorem Recorded.putPlain (h : Recorded s req) (k : Nat) (i : Int) {e : FdEntry} (he : InTable i → e.cloexec = false) :
    Recorded (s.setSlot k i e) req := by
  have hput := h.put k i (e := e) (b := req k i) fun hi hflag => by rw [he hi] at hflag; nomatch hflag
  rwa [setReq_self] at hput

/-- An entry without a file has no flag. -/
theorem Recorded.plain (h : Recorded s req) (hz : s.zombie k = false) (hnone : (s.entry k i).file = none)
    (hi : InTable i) : (s.entry k i).cloexec = false := by
  cases hflag : (s.entry k i).cloexec with
  | false => rfl
  | true => exact absurd hnone (h k hz i hi hflag).1

/-- `get_unused_fd` leaves the entries alone, and the one it returns has no file. -/
theorem getUnusedFd_entry {r : Option Nat} (h : getUnusedFd s k = (r, s')) :
    (∀ j i, s'.entry j i = s.entry j i) ∧ s'.zombie = s.zombie ∧ ∀ fd ∈ r, (s.entry k (fd : Int)).file = none := by
  unfold Files.getUnusedFd at h
  cases ht : s.files k with
  | none =>
    rw [ht] at h
    cases h
    exact ⟨fun _ _ => rfl, rfl, fun _ hfd => nomatch hfd⟩
  | some t =>
    simp only [ht] at h
    have hset : ∀ (n j : Nat) (i : Int), (s.setTable k { t with nextFd := n }).entry j i = s.entry j i := by
      intro n j i
      by_cases hj : j = k
      · subst hj
        rw [entry_setTable, entry_eq ht]
      · simp only [State.entry, State.setTable, Function.update_of_ne hj]
    cases h1 : firstUnused t (maxFds - t.nextFd) t.nextFd with
    | some n =>
      rw [h1] at h
      cases h
      refine ⟨hset _, rfl, fun fd hfd => ?_⟩
      cases hfd
      rw [entry_eq ht]
      exact (firstUnused_spec h1).2.2
    | none =>
      simp only [h1] at h
      cases h2 : firstUnused t t.nextFd 0 with
      | some n =>
        rw [h2] at h
        cases h
        refine ⟨hset _, rfl, fun fd hfd => ?_⟩
        cases hfd
        rw [entry_eq ht]
        exact (firstUnused_spec h2).2.2
      | none =>
        rw [h2] at h
        cases h
        exact ⟨fun _ _ => rfl, rfl, fun _ hfd => nomatch hfd⟩

/-- A found descriptor is installed. -/
theorem Recorded.install (h : Recorded s req) {fd : Nat} (hz : s.zombie k = false) (hg : getUnusedFd s k = (some fd, s'))
    (f : Nat) (b : Bool) : Recorded (fdInstall s' k fd f) (setReq req k fd b) := by
  obtain ⟨he, hz', hnone⟩ := getUnusedFd_entry hg
  have h' : Recorded s' req := h.congr he hz'
  have hplain := h'.plain (i := fd) (hz' ▸ hz) (by rw [he]; exact hnone fd rfl)
  unfold fdInstall
  split
  case isTrue hi =>
    refine h'.put k fd fun _ hflag => ?_
    rw [hplain hi] at hflag
    nomatch hflag
  case isFalse hi =>
    intro j hj i hin hflag
    rw [setReq_apply, if_neg fun hx : j = k ∧ i = fd => hi (hx.2 ▸ hin)]
    exact h' j hj i hin hflag

theorem Recorded.getUnusedFd (h : Recorded s req) {r : Option Nat} (hg : Files.getUnusedFd s k = (r, s')) :
    Recorded s' req :=
  h.congr (getUnusedFd_entry hg).1 (getUnusedFd_entry hg).2.1

theorem Recorded.fput (h : Recorded s req) (f : Nat) : Recorded (fput s f) req := h.congr (fun _ _ => rfl) rfl

theorem Recorded.fget (h : Recorded s req) (k : Nat) (fd : Int) : Recorded (fget s k fd).2 req := by
  rw [fget_eq]
  cases s.lookup k fd with
  | none => exact h
  | some f => exact h.congr (fun _ _ => rfl) rfl

theorem Recorded.filpClose (h : Recorded s req) (f : Nat) : Recorded (filpClose s f) req := by
  refine h.congr (fun _ _ => filpClose_entry s f) ?_
  unfold Files.filpClose release pipeRelease
  split
  · rfl
  · dsimp only
    split <;> rfl

theorem Recorded.doClose (h : Recorded s req) (k : Nat) (fd : Int) : Recorded (doClose s k fd).2 req := by
  have hset := h.putPlain k fd (e := .empty) fun _ => rfl
  unfold Files.doClose
  split
  · split
    · exact hset
    · exact hset.fput _
  · exact h

theorem Recorded.opn {s : State} (h : Recorded s.base s.req) (hl : s.base.Live k) (new : Option Nat) (cloexec : Bool) :
    Recorded (sysOpen s.base k new).2 (asked s (.opn k new cloexec)) := by
  cases new with
  | none => exact h
  | some f =>
    have h' : Recorded (s.base.newFile f none) s.req := h.congr (fun _ _ => rfl) rfl
    cases hg : Files.getUnusedFd (s.base.newFile f none) k with
    | mk r s1 =>
      cases r with
      | none =>
        simp only [asked, sysOpen, hg]
        exact (h'.getUnusedFd hg).filpClose f
      | some fd =>
        simp only [asked, sysOpen, hg]
        exact h'.install hl.2 hg f cloexec

/-- A `dup` fails, or installs the file where the search says. -/
theorem sysDup_cases (s : Files.State) (k : Nat) (oldfd : Int) :
    (sysDup s k oldfd).1 < 0 ∧ (∀ req, Recorded s req → Recorded (sysDup s k oldfd).2 req) ∨
    ∃ f s1 s2, ∃ fd : Nat, (∀ req, Recorded s req → Recorded s1 req) ∧ s1.zombie = s.zombie ∧
      Files.getUnusedFd s1 k = (some fd, s2) ∧ (sysDup s k oldfd).1 = fd ∧
      (sysDup s k oldfd).2 = fdInstall s2 k fd f := by
  unfold sysDup
  rw [fget_eq]
  cases s.lookup k oldfd with
  | none => exact .inl ⟨(by decide : -ebadf < 0), fun _ h => h⟩
  | some f =>
    have hinc : ∀ req, Recorded s req → Recorded (s.incFile f) req := fun req h => h.congr (fun _ _ => rfl) rfl
    dsimp only
    cases hg : Files.getUnusedFd (s.incFile f) k with
    | mk r s2 =>
      cases r with
      | none => exact .inl ⟨(by decide : -emfile < 0), fun req h => ((hinc req h).getUnusedFd hg).fput f⟩
      | some fd => exact .inr ⟨f, _, s2, fd, hinc, rfl, hg, rfl, rfl⟩

theorem Recorded.dup {s : State} (h : Recorded s.base s.req) (hl : s.base.Live k) (oldfd : Int) :
    Recorded (sysDup s.base k oldfd).2 (asked s (.call (.dup k oldfd))) := by
  rcases sysDup_cases s.base k oldfd with ⟨hneg, hkeep⟩ | ⟨f, s1, s2, fd, hkeep, hz, hg, hret, heq⟩
  · simp only [asked, hneg, if_true]
    exact hkeep _ h
  · simp only [asked, hret, if_neg (Int.not_lt.2 (Int.natCast_nonneg fd)), heq]
    exact (hkeep _ h).install (hz ▸ hl.2) hg f false

theorem Recorded.closeExisting (h : Recorded s req) (k : Nat) (fd : Int) : Recorded (closeExisting s k fd) req := by
  have hf := h.fget k fd
  unfold Files.closeExisting
  generalize Files.fget s k fd = r at hf ⊢
  obtain ⟨_ | f, s1⟩ := r
  · exact hf
  · exact (Recorded.fput hf f).doClose k fd

/-- A `dup2` to another descriptor fails, or stores the file there without a flag. -/
theorem sysDup2_cases (s : Files.State) (k : Nat) {oldfd newfd : Int} (hne : oldfd ≠ newfd) :
    (sysDup2 s k oldfd newfd).1 < 0 ∧ (∀ j i, (sysDup2 s k oldfd newfd).2.entry j i = s.entry j i) ∧
      (sysDup2 s k oldfd newfd).2.zombie = s.zombie ∨
    ∃ f s1, 0 ≤ newfd ∧ (sysDup2 s k oldfd newfd).1 = newfd ∧ (∀ req, Recorded s req → Recorded s1 req) ∧
      (sysDup2 s k oldfd newfd).2 = s1.setSlot k newfd ⟨some f, false⟩ := by
  unfold sysDup2
  rw [if_neg hne, fget_eq]
  cases s.lookup k oldfd with
  | none => exact .inl ⟨(by decide : -ebadf < 0), fun _ _ => rfl, rfl⟩
  | some f =>
    dsimp only
    by_cases hr : newfd < 0 ∨ maxFdsPerProcess ≤ newfd
    · rw [if_pos hr]
      exact .inl ⟨(by decide : -ebadf < 0), fun _ _ => rfl, rfl⟩
    · rw [if_neg hr]
      refine .inr ⟨f, _, by omega, rfl, fun req h => ?_, rfl⟩
      have hinc : Recorded (s.incFile f) req := h.congr (fun _ _ => rfl) rfl
      exact hinc.closeExisting k newfd

theorem Recorded.dup2 {s : State} (h : Recorded s.base s.req) (k : Nat) (oldfd newfd : Int) :
    Recorded (sysDup2 s.base k oldfd newfd).2 (asked s (.call (.dup2 k oldfd newfd))) := by
  by_cases heq : oldfd = newfd
  · have hf := h.fget k oldfd
    simp only [asked, heq, true_or, if_true, sysDup2]
    rw [heq] at hf
    generalize Files.fget s.base k newfd = r at hf ⊢
    obtain ⟨_ | f, s1⟩ := r
    · exact hf
    · exact Recorded.fput hf f
  · rcases sysDup2_cases s.base k heq with ⟨hneg, he, hz⟩ | ⟨f, s1, hpos, hret, hs1, heq2⟩
    · simp only [asked, hneg, or_true, if_true]
      exact h.congr he hz
    · simp only [asked, heq, false_or, hret, if_neg (Int.not_lt.2 hpos), heq2]
      exact (hs1 _ h).put k newfd fun _ hflag => nomatch hflag

theorem setReq_setReq (req : Nat → Int → Bool) (k : Nat) (fd : Int) (a b : Bool) :
    setReq (setReq req k fd a) k fd b = setReq req k fd b := by
  simp only [setReq, Function.update_self, Function.update_idem]

theorem entry_setSlot_self (h : ((s.setSlot k i e).files k).isSome) : (s.setSlot k i e).entry k i = e := by
  cases ht : s.files k with
  | none =>
    rw [State.setSlot, ht, ht] at h
    nomatch h
  | some t => rw [entry_setSlot (by rw [ht]; rfl), if_pos rfl]

theorem Recorded.dup3 {s : State} (h : Recorded s.base s.req) (hl : s.base.Live k) (oldfd newfd : Int) (cloexec : Bool) :
    Recorded (sysDup3 s.base k oldfd newfd cloexec).2 (asked s (.call (.dup3 k oldfd newfd cloexec))) := by
  simp only [asked]
  by_cases heq : oldfd = newfd
  · have hret : sysDup3 s.base k oldfd newfd cloexec = (-einval, s.base) := if_pos heq
    rw [hret]
    exact h
  · rcases sysDup2_cases s.base k heq with ⟨hneg, he, hz⟩ | ⟨f, s1, hpos, hret, hs1, heq2⟩
    · have h3 : sysDup3 s.base k oldfd newfd cloexec = sysDup2 s.base k oldfd newfd := by
        simp only [sysDup3, if_neg heq, if_pos hneg]
      rw [h3, if_pos hneg]
      exact h.congr he hz
    · have hput := (hs1 _ h).put k newfd (e := ⟨some f, false⟩) (b := false) fun _ hflag => nomatch hflag
      rw [← heq2] at hput
      have hnot : ¬(sysDup2 s.base k oldfd newfd).1 < 0 := by rw [hret]; exact Int.not_lt.2 hpos
      have h3 : (sysDup3 s.base k oldfd newfd cloexec).1 = newfd := by
        simp only [sysDup3, if_neg heq, if_neg hnot]
        split <;> exact hret
      rw [h3, if_neg (Int.not_lt.2 hpos)]
      simp only [sysDup3, if_neg heq, if_neg hnot]
      cases cloexec with
      | false => exact hput
      | true =>
        rw [if_pos rfl]
        have hflag := hput.put k newfd (b := true)
          (e := { (sysDup2 s.base k oldfd newfd).2.entry k newfd with cloexec := true })
        rw [setReq_setReq] at hflag
        refine hflag fun _ _ => ⟨?_, rfl⟩
        have hk := isSome_sysDup2 hl.1 oldfd newfd
        rw [heq2] at hk ⊢
        rw [entry_setSlot_self hk]
        exact Option.some_ne_none f

theorem Recorded.dupfd {s : State} (h : Recorded s.base s.req) (k : Nat) (fd arg : Int) (cloexec : Bool) :
    Recorded (sysDupfd s.base k fd arg cloexec).2 (asked s (.call (.dupfd k fd arg cloexec))) := by
  simp only [asked, sysDupfd]
  split
  · exact h
  · split
    · exact h
    · rename_i f _
      split
      · exact h
      · rename_i i _
        by_cases hi : i < 0
        · -- an entry before the table
          rw [if_pos hi]
          have hset := h.putPlain k i (e := ⟨some f, cloexec⟩) fun hin => absurd hin.1 (Int.not_le.2 hi)
          exact hset.congr (fun _ _ => rfl) rfl
        · rw [if_neg hi]
          have hset := h.put k i (e := ⟨some f, cloexec⟩) (b := cloexec) fun _ hflag => ⟨Option.some_ne_none f, hflag⟩
          exact hset.congr (fun _ _ => rfl) rfl

theorem Recorded.setfd {s : State} (h : Recorded s.base s.req) (k : Nat) (fd : Int) (cloexec : Bool) :
    Recorded (sysSetfd s.base k fd cloexec).2 (asked s (.call (.setfd k fd cloexec))) := by
  simp only [asked, sysSetfd]
  split
  · exact h
  · split
    · exact h
    · rename_i f _
      exact h.put k fd fun _ hflag => ⟨Option.some_ne_none f, hflag⟩

theorem Recorded.pipe {s : State} (h : Recorded s.base s.req) (hl : s.base.Live k) (pi rf wf : Option Nat)
    (cloexec : Bool) : Recorded (doPipe s.base k pi rf wf).2 (asked s (.pipe k pi rf wf cloexec)) := by
  match pi, rf, wf with
  | none, _, _ | some _, none, _ | some _, some _, none => exact h
  | some pi, some rf, some wf =>
    have hmade : Recorded (pipeMade s.base pi rf wf) s.req := h.congr (fun _ _ => rfl) rfl
    simp only [asked, pipeFds, doPipe]
    rw [show State.newFile _ _ _ = pipeMade s.base pi rf wf from rfl]
    cases hg : Files.getUnusedFd (pipeMade s.base pi rf wf) k with
    | mk r s1 =>
      cases r with
      | none => exact (hmade.getUnusedFd hg).congr (fun _ _ => rfl) rfl
      | some rfd =>
        dsimp only
        have hz1 : s1.zombie k = false := by rw [(getUnusedFd_entry hg).2.1]; exact hl.2
        have hi1 := hmade.install hl.2 hg rf (s.req k rfd)
        rw [setReq_self] at hi1
        have hi1' := hmade.install hl.2 hg rf cloexec
        have hz : (fdInstall s1 k rfd rf).zombie k = false := by
          unfold fdInstall
          split
          · rw [setSlot_zombie]
            exact hz1
          · exact hz1
        cases hg2 : Files.getUnusedFd (fdInstall s1 k rfd rf) k with
        | mk r s2 =>
          cases r with
          | none => exact ((hi1.getUnusedFd hg2).doClose k rfd).congr (fun _ _ => rfl) rfl
          | some wfd => exact hi1'.install hz hg2 wf cloexec

/-- A child takes over the table and what was asked. -/
theorem Recorded.fork {s : State} (h : Recorded s.base s.req) (hl : s.base.Live k) (mem : Bool) (junk : Int → FdEntry) :
    Recorded (filesCopy s.base k mem junk) (asked s (.call (.fork k mem junk))) := by
  obtain ⟨t, ht⟩ := Option.isSome_iff_exists.1 hl.1
  simp only [asked, filesCopy, ht]
  cases mem with
  | false => exact h.congr (fun _ _ => rfl) rfl
  | true =>
    intro j hz i hi hflag
    by_cases hj : j = s.base.ntasks
    · subst hj
      simp only [State.entry, Function.update_self, if_true, Bool.not_true, Bool.false_eq_true, if_false] at hflag ⊢
      simp only [FilesStruct.copy, if_pos hi] at hflag ⊢
      by_cases hnone : (t.fdArray i).file = none
      · rw [if_pos hnone] at hflag
        cases hflag
      · rw [if_neg hnone] at hflag ⊢
        refine ⟨hnone, (h k hl.2 i hi ?_).2⟩
        rw [entry_eq ht]
        exact hflag
    · simp only [State.entry, Function.update_of_ne hj, if_true, Bool.not_true, Bool.false_eq_true, if_false] at hflag ⊢
      exact h j hz i hi hflag

theorem Recorded.exec (h : Recorded s req) (k : Nat) : Recorded (execClose s k) req := by
  have hfold : ∀ (l : List Nat) {s : Files.State}, Recorded s req →
      Recorded (l.foldl (fun s n => execSlot s k n) s) req := by
    intro l
    induction l with
    | nil => exact fun h => h
    | cons n l ih =>
      intro s h
      refine ih ?_
      change Recorded (execSlot s k n) req
      unfold execSlot
      split
      · exact h
      · split
        · exact (h.filpClose _).putPlain k n fun _ => rfl
        · exact h
  exact hfold _ h

/-- A task that ends: only its own entries change, and they no longer matter. -/
theorem Recorded.dead (h : Recorded s req) (hz : s'.zombie k = true) (hz' : ∀ j, j ≠ k → s'.zombie j = s.zombie j)
    (he : ∀ j i, j ≠ k → s'.entry j i = s.entry j i) : Recorded s' req := by
  intro j hj i hi hflag
  have hne : j ≠ k := by
    rintro rfl
    rw [hz] at hj
    nomatch hj
  rw [he j i hne] at hflag ⊢
  exact h j (hz' j hne ▸ hj) i hi hflag

theorem exitClose_other (s : Files.State) (k : Nat) :
    (exitClose s k).zombie = s.zombie ∧ ∀ j i, j ≠ k → (exitClose s k).entry j i = s.entry j i := by
  unfold exitClose
  induction List.range maxFds generalizing s with
  | nil => exact ⟨rfl, fun _ _ _ => rfl⟩
  | cons n l ih =>
    obtain ⟨h1, h2⟩ := ih (exitSlot s k n)
    have hone : (exitSlot s k n).zombie = s.zombie ∧ ∀ j i, j ≠ k → (exitSlot s k n).entry j i = s.entry j i := by
      unfold exitSlot
      split
      · exact ⟨rfl, fun _ _ _ => rfl⟩
      · exact ⟨setSlot_zombie _ _ _ _, fun j i hj => entry_setSlot_ne hj _ _ _ _⟩
    exact ⟨h1.trans hone.1, fun j i hj => (h2 j i hj).trans (hone.2 j i hj)⟩

theorem filesFree_other (s : Files.State) (h : j ≠ k) (i : Int) : (filesFree s k).entry j i = s.entry j i := by
  simp only [State.entry, filesFree, Function.update_of_ne h]

theorem filesFree_zombie (s : Files.State) (k : Nat) : (filesFree s k).zombie = s.zombie := rfl

theorem bury_entry (s : Files.State) (k j : Nat) (i : Int) : (s.bury k).entry j i = s.entry j i := rfl

/-! ## Runs -/

variable {S S' : State} {a : Label}

/-- Calls that ask nothing. -/
theorem Recorded.call (h : Recorded S.base S.req) {l : Files.Label} {b : Files.State}
    (hs : fileStep S.base l = some b) (ha : (Label.call l).toFiles = some l) : Recorded b (asked S (.call l)) := by
  cases l with
  | opn _ _ => nomatch ha
  | pipe _ _ _ _ => nomatch ha
  | close k fd => obtain ⟨-, rfl⟩ := when_some hs; exact h.doClose k fd
  | dup k oldfd => obtain ⟨hl, rfl⟩ := when_some hs; exact h.dup hl oldfd
  | dup2 k oldfd newfd => obtain ⟨-, rfl⟩ := when_some hs; exact h.dup2 k oldfd newfd
  | dup3 k oldfd newfd cloexec => obtain ⟨hl, rfl⟩ := when_some hs; exact h.dup3 hl oldfd newfd cloexec
  | dupfd k fd arg cloexec => obtain ⟨-, rfl⟩ := when_some hs; exact h.dupfd k fd arg cloexec
  | setfd k fd cloexec => obtain ⟨-, rfl⟩ := when_some hs; exact h.setfd k fd cloexec
  | fork k mem junk => obtain ⟨hl, rfl⟩ := when_some hs; exact h.fork hl mem junk
  | exec k => obtain ⟨-, he⟩ := when_some (s := execClose S.base k) hs; rw [he]; exact h.exec k
  | exit k =>
    obtain ⟨-, he⟩ := when_some (s := (exitClose S.base k).bury k) hs
    obtain ⟨hz, hother⟩ := exitClose_other S.base k
    rw [he]
    refine h.dead (k := k) (Function.update_self ..) (fun j hj => ?_) fun j i hj => ?_
    · rw [← hz]
      exact Function.update_of_ne hj ..
    · rw [bury_entry, hother j i hj]
  | taskExit k =>
    obtain ⟨-, rfl⟩ := when_some hs
    exact h.dead (k := k) (Function.update_self ..) (fun j hj => Function.update_of_ne hj ..)
      fun j i hj => filesFree_other S.base hj i
  | reap k =>
    obtain ⟨hz, he⟩ := when_some (s := filesFree (exitClose S.base k) k) hs
    obtain ⟨hz', hother⟩ := exitClose_other S.base k
    rw [he]
    refine h.dead (k := k) ?_ (fun j _ => ?_) fun j i hj => ?_
    · rw [filesFree_zombie, hz', hz]
    · rw [filesFree_zombie, hz']
    · rw [filesFree_other _ hj, hother j i hj]
  | fget k fd =>
    obtain ⟨-, rfl⟩ := when_some hs
    have hf := h.fget k fd
    generalize Files.fget S.base k fd = r at hf ⊢
    obtain ⟨_ | f, s1⟩ := r
    · exact hf
    · exact hf.congr (fun _ _ => rfl) rfl
  | fput f => obtain ⟨-, rfl⟩ := when_some hs; exact h.congr (fun _ _ => rfl) rfl

/-- A step is a call on the tables, or moves a position. -/
theorem step_cases (h : step S a = some S') :
    (∃ f pos, a = .move f pos ∧ S' = { S with pos := Function.update S.pos f pos }) ∨
    ∃ l b, a.toFiles = some l ∧ fileStep S.base l = some b ∧ S' = { S with base := b, req := asked S a } := by
  have hcall : ∀ a, ((a.toFiles.bind fun l => (fileStep S.base l).map fun b => { S with base := b, req := asked S a }) =
      some S') → ∃ l b, a.toFiles = some l ∧ fileStep S.base l = some b ∧
        S' = { S with base := b, req := asked S a } := by
    intro a h
    obtain ⟨l, hl, h⟩ := Option.bind_eq_some_iff.1 h
    obtain ⟨b, hb, rfl⟩ := Option.map_eq_some_iff.1 h
    exact ⟨l, b, hl, hb, rfl⟩
  cases a with
  | move f pos => exact .inl ⟨f, pos, rfl, (Option.some.inj h).symm⟩
  | opn k new cloexec => exact .inr (hcall _ h)
  | pipe k pi rf wf cloexec => exact .inr (hcall _ h)
  | call l => exact .inr (hcall _ h)

theorem Recorded.step (hr : Recorded S.base S.req) (h : step S a = some S') : Recorded S'.base S'.req := by
  rcases step_cases h with ⟨f, pos, -, rfl⟩ | ⟨l, b, ha, hb, rfl⟩
  · exact hr
  · cases a with
    | move f pos => nomatch ha
    | opn k new cloexec =>
      obtain rfl := Option.some.inj ha
      obtain ⟨⟨hl, -⟩, rfl⟩ := when_some hb
      exact hr.opn hl new cloexec
    | pipe k pi rf wf cloexec =>
      obtain rfl := Option.some.inj ha
      obtain ⟨⟨hl, -⟩, rfl⟩ := when_some hb
      exact hr.pipe hl pi rf wf cloexec
    | call l' =>
      have hl' : l = l' := by
        cases l' <;> first | exact (Option.some.inj ha).symm | nomatch ha
      subst hl'
      exact hr.call hb ha

theorem law_iff (hr : Recorded S.base S.req) (h : step S a = some S') : Law S a ↔ Fits S a := by
  rcases step_cases h with ⟨f, pos, rfl, -⟩ | ⟨l, b, ha, hb, -⟩
  · exact Iff.rfl
  · cases a with
    | move f pos => exact Iff.rfl
    | opn k new cloexec => exact Iff.rfl
    | pipe k pi rf wf cloexec => exact Iff.rfl
    | call l' =>
      cases l' with
      | exec k =>
        obtain rfl := Option.some.inj ha
        exact execLaw_iff hr (when_some (s := execClose S.base k) hb).1
      | _ => exact Iff.rfl

theorem Recorded.init (h : machine.init S) : Recorded S.base S.req := by
  obtain ⟨⟨-, -, -, -, hfiles, -, t, ht, -, hempty⟩, -⟩ := h
  intro k _ i hi hflag
  cases k with
  | zero =>
    rw [entry_eq ht, hempty i hi] at hflag
    cases hflag
  | succ k =>
    rw [State.entry, hfiles (k + 1) (Nat.succ_pos k)] at hflag
    cases hflag

/-- **Every exec of a run closes what it should, and nothing else, exactly when at each of them the requests are noted in
the table and no file that goes is used by a descriptor that stays.** -/
theorem law_iff_runOk (l : List Label) (S S' : State) (h0 : machine.init S) :
    machine.RunOk Law S l S' ↔ machine.RunOk Fits S l S' :=
  machine.runOk_iff_step (I := fun S => Recorded S.base S.req) (fun _ _ _ hr h => law_iff hr h)
    (fun _ _ _ hr _ h => hr.step h) l S S' (.init h0)

/-- The first task, before it opens anything. -/
def boot : State := ⟨Files.boot, fun _ _ => false, fun _ => 0⟩

theorem boot_init : machine.init boot := ⟨Files.boot_init, fun _ _ => rfl⟩

/-- A file opened with `O_CLOEXEC`. -/
def askedByOpen : State := { boot with base := (sysOpen Files.boot 0 (some 7)).2, req := setReq boot.req 0 0 true }

/-- It is still open after the exec. -/
theorem not_law_open : (machine.init boot ∧ machine.run boot [.opn 0 (some 7) true] = some askedByOpen) ∧
    ((execClose askedByOpen.base 0).entry 0 0).file = some 7 ∧ ¬Law askedByOpen (.call (.exec 0)) := by
  have hf : ((execClose askedByOpen.base 0).entry 0 0).file = some 7 := by decide +kernel
  refine ⟨⟨boot_init, rfl⟩, hf, fun h => ?_⟩
  have hnone := h.closes 0 (by decide +kernel) (by decide +kernel)
  nomatch hf.symm.trans hnone

/-- Two files, of which the second is to be closed. -/
def twoOpen : List Label := [.opn 0 (some 7) false, .opn 0 (some 8) false, .call (.setfd 0 1 true)]

def twoFiles : State where
  base := (sysSetfd (sysOpen (sysOpen Files.boot 0 (some 7)).2 0 (some 8)).2 0 1 true).2
  req := setReq (setReq (setReq boot.req 0 0 false) 0 1 false) 0 1 true
  pos := fun _ => 0

theorem twoFiles_entry (j : Nat) (i : Int) : twoFiles.base.entry j i =
    if j = 0 then if i = 1 then ⟨some 8, true⟩ else if i = 0 then ⟨some 7, false⟩ else .empty else .empty := by
  cases j with
  | zero =>
    have ht : twoFiles.base.files 0 = some ⟨2, Function.update (Function.update (Function.update (fun _ => .empty) 0
      ⟨some 7, false⟩) 1 ⟨some 8, false⟩) 1 ⟨some 8, true⟩⟩ := rfl
    rw [entry_eq ht]
    by_cases h : i = 1 <;> simp [Function.update_apply, h]
  | succ j => rfl

theorem fits_twoFiles : ExecFits twoFiles 0 := by
  have hreq : ∀ i, twoFiles.req 0 i = true ↔ i = 1 := by
    intro i
    show setReq (setReq (setReq boot.req 0 0 false) 0 1 false) 0 1 true 0 i = true ↔ _
    simp only [setReq_apply, true_and]
    by_cases h1 : i = 1
    · simp [h1]
    · by_cases h0 : i = 0 <;> simp [h1, h0, boot]
  refine ⟨fun i _ hi => ?_, fun i f _ hf hflag _ j i' _ hf' => ?_⟩
  · rw [(hreq i).1 hi]
    exact ⟨by decide, by rw [twoFiles_entry]; rfl⟩
  · have hi : i = 1 := by
      by_contra hne
      rw [twoFiles_entry, if_pos rfl, if_neg hne] at hflag
      split at hflag <;> nomatch hflag
    rw [hi, twoFiles_entry] at hf
    obtain rfl := Option.some.inj hf
    rw [twoFiles_entry] at hf'
    split at hf'
    · split at hf'
      · exact ⟨‹_›, (hreq i').2 ‹_›⟩
      · split at hf' <;> nomatch hf'
    · nomatch hf'

theorem law_iff_runOk_two : ∃ S, machine.RunOk Law boot (twoOpen ++ [.call (.exec 0)]) S :=
  ⟨_, (law_iff_runOk _ boot _ boot_init).2
    ⟨trivial, _, rfl, trivial, _, rfl, trivial, _, rfl, (fits_twoFiles : Fits twoFiles (.call (.exec 0))), _, rfl, rfl⟩⟩

end Cloexec
end Pico
