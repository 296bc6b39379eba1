import Picomimi.PipeWait
/-!
# PipeWaitRun — when no wakeup is lost

A task on its way to sleep owes nothing while it holds the pipe's lock but a close of the other side; from its linking on,
whatever it waits for comes with a walk of its queue that has yet to reach it (`SleepOk`).  `Inv.quiet` is a step of a task
that walks no queue.
-/
namespace Pico
namespace PipeWait

open Lib Pipe

def Pc.holds : Pc → Bool
  | .enq _ | .deq _ => true
  | .user | .top _ | .set _ | .sched _ | .asleep _ | .wake _ _ | .scan _ _ _ => false

def Pc.linked : Pc → Option Call
  | .set c | .sched c | .asleep c | .deq c => some c
  | .user | .top _ | .enq _ | .wake _ _ | .scan _ _ _ => none

def Pc.waker : Pc → Bool
  | .wake _ _ | .scan _ _ _ => true
  | .user | .top _ | .enq _ | .set _ | .sched _ | .asleep _ | .deq _ => false

/-- **What a task on its way to sleep is promised.** -/
def SleepOk (s : System) (t : Nat) : Pc → Prop
  | .enq c => ¬Ready s.pi c ∧ (Closed s.pi c → About s c.queue)
  | .set c => Ready s.pi c ∨ Closed s.pi c → Pending s c.queue t
  | .sched c | .asleep c => s.interruptible t = true → Ready s.pi c ∨ Closed s.pi c → Pending s c.queue t
  | .user | .top _ | .deq _ | .wake _ _ | .scan _ _ _ => True

structure Inv (s : System) : Prop where
  lock : ∀ t, (s.pc t).holds = true → s.pi.lock = some t
  linked : ∀ t c, (s.pc t).linked = some c → t ∈ s.waitq c.queue
  sleep : ∀ t, SleepOk s t (s.pc t)

variable {s s' : System} {q : Queue} {t v : Nat}

theorem Inv.noLost (hi : Inv s) : NoLostWakeup s := by
  intro t c hpc hint hneed
  have h := hi.sleep t
  rw [hpc] at h
  exact h hint hneed

/-! ## Wakeups that stay pending -/

theorem About.frame (h : About s q) (hv : (s.pc v).waker = false) (hpc : ∀ u, u ≠ v → s'.pc u = s.pc u) : About s' q := by
  obtain ⟨u, after, hu⟩ := h
  refine ⟨u, after, (hpc u fun huv => ?_).trans hu⟩
  rw [← huv, hu] at hv
  cases hv

theorem Pending.frame (h : Pending s q t) (hv : (s.pc v).waker = false) (hpc : ∀ u, u ≠ v → s'.pc u = s.pc u) :
    Pending s' q t := by
  rcases h with h | ⟨u, rest, after, hu, ht⟩
  · exact .inl (h.frame hv hpc)
  · refine .inr ⟨u, rest, after, (hpc u fun huv => ?_).trans hu, ht⟩
    rw [← huv, hu] at hv
    cases hv

theorem Ready.congr {pi pi' : PipeInode} (h : pi'.buf = pi.buf) {c : Call} (hr : Ready pi' c) : Ready pi c := by
  cases c with
  | read count nonblock =>
    simp only [Ready] at hr ⊢
    rwa [← h]
  | write buf written nonblock =>
    simp only [Ready, WriteBlocked] at hr ⊢
    rwa [← h]

theorem Closed.congr {pi pi' : PipeInode} (hw : pi'.writers = pi.writers) (hr : pi'.readers = pi.readers) {c : Call}
    (h : Closed pi' c) : Closed pi c := by
  cases c with
  | read count nonblock => exact hw.symm.trans h
  | write buf written nonblock => exact hr.symm.trans h

/-- What a step asks of the pipe: a task that did not need waking before it needs it now only if a walk is about to
begin, and while the pipe's lock is held nothing comes in. -/
structure PipeStep (s s' : System) : Prop where
  ready : ∀ c, Ready s'.pi c → Ready s.pi c ∨ About s' c.queue
  held : s.pi.lock ≠ none → ∀ c, Ready s'.pi c → Ready s.pi c
  closed : ∀ c, Closed s'.pi c → Closed s.pi c ∨ About s' c.queue

theorem PipeStep.same (hb : s'.pi.buf = s.pi.buf) (hw : s'.pi.writers = s.pi.writers) (hr : s'.pi.readers = s.pi.readers) :
    PipeStep s s' :=
  ⟨fun _ h => .inl (Ready.congr hb h), fun _ _ h => Ready.congr hb h, fun _ h => .inl (Closed.congr hw hr h)⟩

/-- **A step of a task that walks no queue.** -/
theorem Inv.quiet (hi : Inv s) (hv : (s.pc v).waker = false) (hpc : ∀ u, u ≠ v → s'.pc u = s.pc u)
    (hint : ∀ u, u ≠ v → s'.interruptible u = true → s.interruptible u = true)
    (hlock : ∀ u, u ≠ v → s.pi.lock = some u → s'.pi.lock = some u)
    (hlink : ∀ u q, u ≠ v → u ∈ s.waitq q → u ∈ s'.waitq q) (hpipe : PipeStep s s')
    (hown : (s'.pc v).holds = true → s'.pi.lock = some v)
    (hownlink : ∀ c, (s'.pc v).linked = some c → v ∈ s'.waitq c.queue) (hsleep : SleepOk s' v (s'.pc v)) : Inv s' := by
  have hneed : ∀ u c, (Ready s.pi c ∨ Closed s.pi c → Pending s c.queue u) →
      Ready s'.pi c ∨ Closed s'.pi c → Pending s' c.queue u := by
    rintro u c hold (h | h)
    · rcases hpipe.ready c h with h | h
      · exact (hold (.inl h)).frame hv hpc
      · exact .inl h
    · rcases hpipe.closed c h with h | h
      · exact (hold (.inr h)).frame hv hpc
      · exact .inl h
  refine ⟨fun u hu => ?_, fun u c hu => ?_, fun u => ?_⟩
  · by_cases huv : u = v
    · subst huv
      exact hown hu
    · rw [hpc u huv] at hu
      exact hlock u huv (hi.lock u hu)
  · by_cases huv : u = v
    · subst huv
      exact hownlink c hu
    · rw [hpc u huv] at hu
      exact hlink u _ huv (hi.linked u c hu)
  · by_cases huv : u = v
    · subst huv
      exact hsleep
    · rw [hpc u huv]
      have hold := hi.sleep u
      cases hp : s.pc u with
      | enq c =>
        rw [hp] at hold
        have hheld : s.pi.lock ≠ none := by
          rw [hi.lock u (by rw [hp]; rfl)]
          exact Option.some_ne_none u
        refine ⟨fun h => hold.1 (hpipe.held hheld c h), fun h => ?_⟩
        rcases hpipe.closed c h with h | h
        · exact (hold.2 h).frame hv hpc
        · exact h
      | set c =>
        rw [hp] at hold
        exact hneed u c hold
      | sched c =>
        rw [hp] at hold
        exact fun h => hneed u c (hold (hint u huv h))
      | asleep c =>
        rw [hp] at hold
        exact fun h => hneed u c (hold (hint u huv h))
      | user | top _ | deq _ | wake _ _ | scan _ _ _ => trivial

/-! ## The steps of a call -/

theorem go_pc (s : System) (t : Nat) (p : Pc) : (s.go t p).pc t = p := Function.update_self _ _ _

theorem go_pc_of_ne (s : System) {t u : Nat} (p : Pc) (h : u ≠ t) : (s.go t p).pc u = s.pc u := Function.update_of_ne h _ _

/-- A task goes to a place that promises it nothing. -/
theorem Inv.go (hi : Inv s) (hv : (s.pc v).waker = false) {p : Pc} (hh : p.holds = false) (hl : p.linked = none)
    (hp : ∀ s'', SleepOk s'' v p) : Inv (s.go v p) := by
  refine hi.quiet hv (fun u hu => go_pc_of_ne s p hu) (fun _ _ h => h) (fun _ _ h => h) (fun _ _ _ h => h)
    (.same rfl rfl rfl) (fun h => ?_) (fun c h => ?_) ?_
  · rw [go_pc, hh] at h
    cases h
  · rw [go_pc, hl] at h
    cases h
  · rw [go_pc]
    exact hp _

theorem topTurn_pc_of_ne (s : System) {t u : Nat} (c : Call) (h : u ≠ t) : (topTurn s t c).pc u = s.pc u := by
  unfold topTurn
  split
  · split <;> exact go_pc_of_ne _ _ h
  · split
    · exact go_pc_of_ne _ _ h
    · split
      · split <;> exact go_pc_of_ne _ _ h
      · split <;> exact go_pc_of_ne _ _ h

theorem pbufWrite_space : ∀ (src : List UInt8) (pb : PipeBuffer),
    (pbufWrite pb src).1.size = pb.size ∧ pb.count ≤ (pbufWrite pb src).1.count
  | [], pb => ⟨rfl, Nat.le_refl _⟩
  | b :: src, pb => by
    unfold pbufWrite
    split
    · obtain ⟨hsize, hcount⟩ := pbufWrite_space src
        { pb with data := Function.update pb.data pb.head b, head := (pb.head + 1) &&& (pb.size - 1), count := pb.count + 1 }
      exact ⟨hsize, Nat.le_trans (Nat.le_succ _) hcount⟩
    · exact ⟨rfl, Nat.le_refl _⟩

theorem resume_sleepOk (after : Option Call) : SleepOk s v (resume after) := by
  cases after <;> trivial

/-- A turn that moved bytes wakes the other side. -/
theorem Inv.moved (hi : Inv s) (hv : (s.pc v).waker = false) (hfree : s.pi.lock = none) (pi : PipeInode)
    (hw : pi.writers = s.pi.writers) (hr : pi.readers = s.pi.readers) {after : Option Call}
    (hready : ∀ c : Call, c.queue ≠ q → Ready pi c → Ready s.pi c) :
    Inv ({ s with pi := pi }.go v (.wake q after)) := by
  refine hi.quiet hv (fun u hu => go_pc_of_ne _ _ hu) (fun _ _ h => h) (fun u _ h => ?_) (fun _ _ _ h => h)
    ⟨fun c h => ?_, fun h => absurd hfree h, fun c h => .inl (Closed.congr hw hr h)⟩ (fun h => ?_) (fun c h => ?_) ?_
  · rw [hfree] at h
    cases h
  · by_cases hq : c.queue = q
    · exact .inr ⟨v, after, hq ▸ go_pc _ _ _⟩
    · exact .inl (hready c hq h)
  · rw [go_pc] at h
    cases h
  · rw [go_pc] at h
    cases h
  · rw [go_pc]
    trivial

/-- A turn that has to wait keeps the pipe's lock. -/
theorem Inv.blocked (hi : Inv s) (hv : (s.pc v).waker = false) (hfree : s.pi.lock = none) {c : Call}
    (hready : ¬Ready s.pi c) (hclosed : ¬Closed s.pi c) :
    Inv ({ s with pi := { s.pi with lock := some v } }.go v (.enq c)) := by
  refine hi.quiet hv (fun u hu => go_pc_of_ne _ _ hu) (fun _ _ h => h) (fun u _ h => ?_) (fun _ _ _ h => h)
    (.same rfl rfl rfl) (fun _ => rfl) (fun c h => ?_) ?_
  · rw [hfree] at h
    cases h
  · rw [go_pc] at h
    cases h
  · rw [go_pc]
    exact ⟨fun h => hready (Ready.congr rfl h), fun h => absurd (Closed.congr rfl rfl h) hclosed⟩

theorem Inv.topTurn (hi : Inv s) {c : Call} (hpc : s.pc v = .top c) (hfree : s.pi.lock = none) : Inv (topTurn s v c) := by
  have hv : (s.pc v).waker = false := by
    rw [hpc]
    rfl
  cases c with
  | read count nonblock =>
    unfold PipeWait.topTurn pipeReadTurn
    by_cases hdata : 0 < s.pi.buf.count
    · simp only [if_pos hdata]
      refine hi.moved hv hfree { s.pi with buf := (pbufRead s.pi.buf count).1 } rfl rfl fun c hq _ => ?_
      cases c with
      | read _ _ => exact hdata
      | write _ _ _ => exact absurd rfl hq
    · simp only [if_neg hdata]
      by_cases hw : s.pi.writers = 0
      · simp only [if_pos hw]
        exact hi.go hv rfl rfl fun _ => trivial
      · simp only [if_neg hw]
        cases nonblock with
        | true => exact hi.go hv rfl rfl fun _ => trivial
        | false => exact hi.blocked hv hfree hdata hw
  | write buf written nonblock =>
    unfold PipeWait.topTurn
    by_cases hr : s.pi.readers = 0
    · simp only [if_pos hr]
      exact hi.go hv rfl rfl fun _ => trivial
    · simp only [if_neg hr]
      by_cases hb : WriteBlocked s.pi buf
      · simp only [if_pos hb]
        cases nonblock with
        | true => exact hi.go hv rfl rfl fun _ => trivial
        | false => exact hi.blocked hv hfree (fun h => h hb) hr
      · have hmoved : ∀ after, Inv ({ s with
            pi := { s.pi with buf := (pbufWrite s.pi.buf (buf.drop written)).1 } }.go v (.wake .read after)) := by
          intro after
          refine hi.moved hv hfree { s.pi with buf := (pbufWrite s.pi.buf (buf.drop written)).1 } rfl rfl fun c hq h => ?_
          cases c with
          | read _ _ => exact absurd rfl hq
          | write buf' _ _ =>
            -- there is no more room than before
            refine fun hblocked => h ?_
            obtain ⟨hsize, hcount⟩ := pbufWrite_space (buf.drop written) s.pi.buf
            unfold WriteBlocked pbufSpace at hblocked ⊢
            simp only [hsize]
            omega
        simp only [if_neg hb, pipeWriteTurn, if_neg hr, if_neg (show ¬(_ ∨ _) from hb)]
        split
        · rename_i hgo
          split at hgo
          · cases hgo
            exact hmoved _
          · cases hgo
        · rename_i hret
          split at hret
          · cases hret
          · cases hret
            exact hmoved _

/-- **The task is linked, and the pipe's lock dropped.** -/
theorem Inv.enqTurn (hi : Inv s) {c : Call} (hpc : s.pc v = .enq c) :
    Inv ({ s with
      pi := { s.pi with lock := none }
      waitq := Function.update s.waitq c.queue (s.waitq c.queue ++ [v]) }.go v (.set c)) := by
  have hv : (s.pc v).waker = false := by
    rw [hpc]
    rfl
  have hlock : s.pi.lock = some v := hi.lock v (by rw [hpc]; rfl)
  have hold := hi.sleep v
  rw [hpc] at hold
  refine hi.quiet hv (fun u hu => go_pc_of_ne _ _ hu) (fun _ _ h => h) (fun u hu h => ?_) (fun u q _ h => ?_)
    (.same rfl rfl rfl) (fun h => ?_) (fun c' h => ?_) ?_
  · rw [hlock] at h
    exact absurd (Option.some.inj h).symm hu
  · show u ∈ Function.update s.waitq c.queue (s.waitq c.queue ++ [v]) q
    by_cases hq : q = c.queue
    · subst hq
      rw [Function.update_self]
      exact List.mem_append_left _ h
    · rwa [Function.update_of_ne hq]
  · rw [go_pc] at h
    cases h
  · rw [go_pc] at h
    cases h
    show v ∈ Function.update s.waitq c.queue (s.waitq c.queue ++ [v]) c.queue
    rw [Function.update_self]
    exact List.mem_append_right _ (List.mem_singleton.2 rfl)
  · rw [go_pc]
    rintro (h | h)
    · exact absurd (Ready.congr rfl h) hold.1
    · exact .inl ((hold.2 (Closed.congr rfl rfl h)).frame hv fun u hu => go_pc_of_ne _ _ hu)

/-- A linked task goes on: what it is promised stays. -/
theorem Inv.onward (hi : Inv s) {c : Call} {p : Pc} (hv : (s.pc v).waker = false) (hl : (s.pc v).linked = some c)
    (hh : p.holds = false) (hp : p.linked = some c) {interruptible : Nat → Bool}
    (hint : ∀ u, u ≠ v → interruptible u = s.interruptible u)
    (hsleep : SleepOk ({ s with interruptible := interruptible }.go v p) v p) :
    Inv ({ s with interruptible := interruptible }.go v p) := by
  refine hi.quiet hv (fun u hu => go_pc_of_ne _ _ hu) (fun u hu h => (hint u hu).symm.trans h) (fun _ _ h => h)
    (fun _ _ _ h => h) (.same rfl rfl rfl) (fun h => ?_) (fun c' h => ?_) ?_
  · rw [go_pc, hh] at h
    cases h
  · rw [go_pc, hp] at h
    cases h
    exact hi.linked v c hl
  · rw [go_pc]
    exact hsleep

theorem Inv.relock (hi : Inv s) {c : Call} (hpc : s.pc v = .asleep c) (h : relock s v c = some s') : Inv s' := by
  have hv : (s.pc v).waker = false := by
    rw [hpc]
    rfl
  unfold PipeWait.relock at h
  split at h
  · cases h
  · rename_i hfree
    cases h
    have hnone := Option.not_isSome_iff_eq_none.1 hfree
    refine hi.quiet hv (fun u hu => go_pc_of_ne _ _ hu) (fun _ _ h => h) (fun u _ h => ?_) (fun _ _ _ h => h)
      (.same rfl rfl rfl) (fun _ => rfl) (fun c' h => ?_) ?_
    · rw [hnone] at h
      cases h
    · rw [go_pc] at h
      cases h
      exact hi.linked v c (by rw [hpc]; rfl)
    · rw [go_pc]
      trivial

/-- **The task is unlinked.** -/
theorem Inv.unlink (hi : Inv s) {c : Call} (hpc : s.pc v = .deq c) (lock : Option Nat) {p : Pc} (hh : p.holds = false)
    (hl : p.linked = none) (hp : ∀ s'', SleepOk s'' v p) :
    Inv ({ s with
      waitq := Function.update s.waitq c.queue ((s.waitq c.queue).erase v)
      pi := { s.pi with lock := lock } }.go v p) := by
  have hv : (s.pc v).waker = false := by
    rw [hpc]
    rfl
  have hlock : s.pi.lock = some v := hi.lock v (by rw [hpc]; rfl)
  refine hi.quiet hv (fun u hu => go_pc_of_ne _ _ hu) (fun _ _ h => h) (fun u hu h => ?_) (fun u q hu h => ?_)
    (.same rfl rfl rfl) (fun h => ?_) (fun c' h => ?_) ?_
  · rw [hlock] at h
    exact absurd (Option.some.inj h).symm hu
  · show u ∈ Function.update s.waitq c.queue ((s.waitq c.queue).erase v) q
    by_cases hq : q = c.queue
    · subst hq
      rw [Function.update_self]
      exact (List.mem_erase_of_ne hu).2 h
    · rwa [Function.update_of_ne hq]
  · rw [go_pc, hh] at h
    cases h
  · rw [go_pc, hl] at h
    cases h
  · rw [go_pc]
    exact hp _

theorem Inv.deqTurn (hi : Inv s) {c : Call} (hpc : s.pc v = .deq c) : Inv (deqTurn s v c) := by
  unfold PipeWait.deqTurn
  cases c with
  | read count nonblock =>
    dsimp only
    split
    · exact hi.unlink hpc none rfl rfl fun _ => trivial
    · exact hi.unlink hpc none rfl rfl fun _ => trivial
  | write buf written nonblock =>
    dsimp only
    split
    · exact hi.unlink hpc none rfl rfl fun _ => trivial
    · exact hi.unlink hpc s.pi.lock rfl rfl fun _ => trivial

/-! ## The walk of a queue -/

/-- **A step of a walk**: the pipe and the queues stay, `v` goes from waker to `p`. -/
theorem Inv.walk (hi : Inv s) {p : Pc} (wqLock : Queue → Option Nat) {interruptible : Nat → Bool} (hh : p.holds = false)
    (hl : p.linked = none) (hp : ∀ s'', SleepOk s'' v p)
    (hint : ∀ u, interruptible u = true → s.interruptible u = true)
    (henq : ∀ t c, s.pc t = .enq c → Closed s.pi c → About s c.queue →
      About ({ s with wqLock := wqLock, interruptible := interruptible }.go v p) c.queue)
    (hset : ∀ t c, s.pc t = .set c → Ready s.pi c ∨ Closed s.pi c → Pending s c.queue t →
      Pending ({ s with wqLock := wqLock, interruptible := interruptible }.go v p) c.queue t)
    (hasleep : ∀ t c, s.pc t = .sched c ∨ s.pc t = .asleep c → interruptible t = true → Pending s c.queue t →
      Pending ({ s with wqLock := wqLock, interruptible := interruptible }.go v p) c.queue t) :
    Inv ({ s with wqLock := wqLock, interruptible := interruptible }.go v p) := by
  refine ⟨fun u hu => ?_, fun u c hu => ?_, fun u => ?_⟩
  · by_cases huv : u = v
    · subst huv
      rw [go_pc, hh] at hu
      cases hu
    · rw [go_pc_of_ne _ _ huv] at hu
      exact hi.lock u hu
  · by_cases huv : u = v
    · subst huv
      rw [go_pc, hl] at hu
      cases hu
    · rw [go_pc_of_ne _ _ huv] at hu
      exact hi.linked u c hu
  · by_cases huv : u = v
    · subst huv
      rw [go_pc]
      exact hp _
    · rw [go_pc_of_ne _ _ huv]
      have hold := hi.sleep u
      show SleepOk _ u (s.pc u)
      cases hpc : s.pc u with
      | enq c =>
        rw [hpc] at hold
        exact ⟨hold.1, fun h => henq u c hpc h (hold.2 h)⟩
      | set c =>
        rw [hpc] at hold
        exact fun h => hset u c hpc h (hold h)
      | sched c =>
        rw [hpc] at hold
        exact fun hn h => hasleep u c (.inl hpc) hn (hold (hint u hn) h)
      | asleep c =>
        rw [hpc] at hold
        exact fun hn h => hasleep u c (.inr hpc) hn (hold (hint u hn) h)
      | user | top _ | deq _ | wake _ _ | scan _ _ _ => trivial

/-- **The walk begins**: whoever is linked is in it. -/
theorem Inv.begin (hi : Inv s) {after : Option Call} (hpc : s.pc v = .wake q after) (hclear : Clear s (.turn v)) :
    Inv ({ s with wqLock := Function.update s.wqLock q (some v) }.go v (.scan q (s.waitq q) after)) := by
  simp only [Clear, hpc] at hclear
  have hpend : ∀ t c, (s.pc t).linked = some c → Pending s c.queue t →
      Pending ({ s with wqLock := Function.update s.wqLock q (some v) }.go v (.scan q (s.waitq q) after)) c.queue t := by
    rintro t c hl (⟨u, after', hu⟩ | ⟨u, rest, after', hu, hmem⟩)
    · by_cases huv : u = v
      · subst huv
        rw [hpc] at hu
        injection hu with hq _
        refine .inr ⟨u, _, after, ?_, hi.linked t c hl⟩
        rw [← hq]
        exact go_pc _ _ _
      · exact .inl ⟨u, after', (go_pc_of_ne _ _ huv).trans hu⟩
    · refine .inr ⟨u, rest, after', (go_pc_of_ne _ _ fun huv => ?_).trans hu, hmem⟩
      rw [huv, hpc] at hu
      cases hu
  refine hi.walk _ rfl rfl (fun _ => trivial) (fun _ h => h) (fun t c ht hcl hab => ?_)
    (fun t c ht _ h => hpend t c (by rw [ht]; rfl) h) (fun t c ht _ h => hpend t c ?_ h)
  · obtain ⟨u, after', hu⟩ := hab
    by_cases huv : u = v
    · subst huv
      rw [hpc] at hu
      injection hu with hq _
      exact absurd (.inr hcl) (hclear t c ht hq.symm)
    · exact ⟨u, after', (go_pc_of_ne _ _ huv).trans hu⟩
  · rcases ht with ht | ht <;> rw [ht] <;> rfl

/-- A walk that goes on from `rest` keeps what is pending for those in it. -/
theorem Pending.walk {u t : Nat} {rest : List Nat} {after : Option Call} {p : Pc} (hpc : s.pc v = .scan q (u :: rest) after)
    {interruptible : Nat → Bool} {q' : Queue} (h : Pending s q' t) (htu : t ≠ u) (hp : p = .scan q rest after) :
    Pending ({ s with interruptible := interruptible }.go v p) q' t := by
  rcases h with ⟨w, after', hw⟩ | ⟨w, rest', after', hw, hmem⟩
  · refine .inl ⟨w, after', (go_pc_of_ne _ _ fun hwv => ?_).trans hw⟩
    rw [hwv, hpc] at hw
    cases hw
  · by_cases hwv : w = v
    · subst hwv
      rw [hpc] at hw
      cases hw
      exact .inr ⟨w, rest, after, hp ▸ go_pc _ _ _, (List.mem_cons.1 hmem).resolve_left htu⟩
    · exact .inr ⟨w, rest', after', (go_pc_of_ne _ _ hwv).trans hw, hmem⟩

/-- **The walk comes to `u`.** -/
theorem Inv.visit (hi : Inv s) {u : Nat} {rest : List Nat} {after : Option Call} (hpc : s.pc v = .scan q (u :: rest) after)
    (hclear : Clear s (.turn v)) :
    Inv ({ s with interruptible := Function.update s.interruptible u false }.go v (.scan q rest after)) := by
  simp only [Clear, hpc] at hclear
  have hint : ∀ w, Function.update s.interruptible u false w = true → w ≠ u ∧ s.interruptible w = true := by
    intro w hw
    by_cases hwu : w = u
    · subst hwu
      rw [Function.update_self] at hw
      cases hw
    · rw [Function.update_of_ne hwu] at hw
      exact ⟨hwu, hw⟩
  refine hi.walk s.wqLock rfl rfl (fun _ => trivial) (fun w hw => (hint w hw).2) (fun t c ht hcl hab => ?_)
    (fun t c ht hneed h => ?_) (fun t c ht hn h => h.walk hpc (hint t hn).1 rfl)
  · obtain ⟨w, after', hw⟩ := hab
    refine ⟨w, after', (go_pc_of_ne _ _ fun hwv => ?_).trans hw⟩
    rw [hwv, hpc] at hw
    cases hw
  · refine h.walk hpc (fun htu => ?_) rfl
    subst htu
    exact hclear c ht hneed

/-- **The walk is over.** -/
theorem Inv.finish (hi : Inv s) {after : Option Call} (hpc : s.pc v = .scan q [] after) :
    Inv ({ s with wqLock := Function.update s.wqLock q none }.go v (resume after)) := by
  have habout : ∀ q', About s q' → About ({ s with wqLock := Function.update s.wqLock q none }.go v (resume after)) q' := by
    rintro q' ⟨w, after', hw⟩
    refine ⟨w, after', (go_pc_of_ne _ _ fun hwv => ?_).trans hw⟩
    rw [hwv, hpc] at hw
    cases hw
  have hpend : ∀ q' t, Pending s q' t →
      Pending ({ s with wqLock := Function.update s.wqLock q none }.go v (resume after)) q' t := by
    rintro q' t (h | ⟨w, rest', after', hw, hmem⟩)
    · exact .inl (habout q' h)
    · refine .inr ⟨w, rest', after', (go_pc_of_ne _ _ fun hwv => ?_).trans hw, hmem⟩
      rw [hwv, hpc] at hw
      cases hw
      cases hmem
  refine hi.walk _ (by cases after <;> rfl) (by cases after <;> rfl) (fun _ => resume_sleepOk after) (fun _ h => h)
    (fun _ c _ _ h => habout c.queue h) (fun t c _ _ h => hpend c.queue t h) (fun t c _ _ h => hpend c.queue t h)

/-! ## Runs -/

theorem Inv.turn (hi : Inv s) (hclear : Clear s (.turn v)) (h : turn s v = some s') : Inv s' := by
  unfold PipeWait.turn at h
  split at h
  · cases h
  · rename_i c hpc
    split at h
    · cases h
    · rename_i hfree
      cases h
      exact hi.topTurn hpc (Option.not_isSome_iff_eq_none.1 hfree)
  · rename_i c hpc
    split at h
    · cases h
    · cases h
      exact hi.enqTurn hpc
  · rename_i c hpc
    cases h
    have hv : (s.pc v).waker = false := by
      rw [hpc]
      rfl
    have hold := hi.sleep v
    rw [hpc] at hold
    exact hi.onward hv (by rw [hpc]; rfl) rfl rfl (fun u hu => Function.update_of_ne hu _ _)
      fun _ hneed => (hold hneed).frame hv fun u hu => go_pc_of_ne _ _ hu
  · rename_i c hpc
    cases h
    have hv : (s.pc v).waker = false := by
      rw [hpc]
      rfl
    have hold := hi.sleep v
    rw [hpc] at hold
    exact hi.onward hv (by rw [hpc]; rfl) rfl rfl (fun _ _ => rfl)
      fun hn hneed => (hold hn hneed).frame hv fun u hu => go_pc_of_ne _ _ hu
  · rename_i c hpc
    split at h
    · cases h
    · exact hi.relock hpc h
  · rename_i c hpc
    split at h
    · cases h
    · cases h
      exact hi.deqTurn hpc
  · rename_i q after hpc
    split at h
    · cases h
    · cases h
      exact hi.begin hpc hclear
  · rename_i q after hpc
    cases h
    exact hi.finish hpc
  · rename_i q u rest after hpc
    cases h
    exact hi.visit hpc hclear

/-- Closing an end wakes the other side. -/
theorem Inv.release (hi : Inv s) (hpc : s.pc v = .user) {e : Queue} (h : release s v e = some s') : Inv s' := by
  have hv : (s.pc v).waker = false := by
    rw [hpc]
    rfl
  have hown : ∀ pi : PipeInode, ∀ q, pi.buf = s.pi.buf → pi.lock = s.pi.lock →
      (∀ c : Call, c.queue ≠ q → Closed pi c → Closed s.pi c) → Inv ({ s with pi := pi }.go v (.wake q none)) := by
    intro pi q hbuf hlock hclosed
    refine hi.quiet hv (fun u hu => go_pc_of_ne _ _ hu) (fun _ _ h => h) (fun u _ h => hlock.trans h) (fun _ _ _ h => h)
      ⟨fun c h => .inl (Ready.congr hbuf h), fun _ c h => Ready.congr hbuf h, fun c h => ?_⟩ (fun h => ?_) (fun c h => ?_) ?_
    · by_cases hq : c.queue = q
      · exact .inr ⟨v, none, hq ▸ go_pc _ _ _⟩
      · exact .inl (hclosed c hq h)
    · rw [go_pc] at h
      cases h
    · rw [go_pc] at h
      cases h
    · rw [go_pc]
      trivial
  unfold PipeWait.release at h
  cases e with
  | read =>
    dsimp only at h
    split at h
    · cases h
    · cases h
      refine hown { s.pi with readers := s.pi.readers - 1 } .write rfl rfl fun c hq hc => ?_
      cases c with
      | read _ _ => exact hc
      | write _ _ _ => exact absurd rfl hq
  | write =>
    dsimp only at h
    split at h
    · cases h
    · cases h
      refine hown { s.pi with writers := s.pi.writers - 1 } .read rfl rfl fun c hq hc => ?_
      cases c with
      | read _ _ => exact absurd rfl hq
      | write _ _ _ => exact hc

/-- A step that moves no task, and puts none to sleep. -/
theorem Inv.calm (hi : Inv s) {interruptible signal : Nat → Bool}
    (hint : ∀ u, interruptible u = true → s.interruptible u = true) :
    Inv { s with interruptible := interruptible, signal := signal } := by
  refine ⟨hi.lock, hi.linked, fun u => ?_⟩
  have hold := hi.sleep u
  show SleepOk _ u (s.pc u)
  cases hpc : s.pc u with
  | enq c =>
    rw [hpc] at hold
    exact hold
  | set c =>
    rw [hpc] at hold
    exact hold
  | sched c =>
    rw [hpc] at hold
    exact fun hn => hold (hint u hn)
  | asleep c =>
    rw [hpc] at hold
    exact fun hn => hold (hint u hn)
  | user | top _ | deq _ | wake _ _ | scan _ _ _ => trivial

theorem Inv.step {a : Label} (hi : Inv s) (hclear : Clear s a) (h : machine.step s a = some s') : Inv s' := by
  cases a with
  | call t c =>
    simp only [machine, PipeWait.step] at h
    split at h
    · rename_i hpc
      cases h
      have hv : (s.pc t).waker = false := by
        rw [hpc]
        rfl
      cases c with
      | read count nonblock =>
        unfold entry
        dsimp only
        split
        · exact hi.go hv rfl rfl fun _ => trivial
        · exact hi.go hv rfl rfl fun _ => trivial
      | write buf written nonblock =>
        unfold entry
        dsimp only
        split
        · exact hi.go hv rfl rfl fun _ => trivial
        · exact hi.go hv rfl rfl fun _ => trivial
    · cases h
  | turn t => exact hi.turn hclear h
  | idle t =>
    simp only [machine, PipeWait.step] at h
    split at h
    · rename_i c hpc
      exact hi.relock hpc h
    · cases h
  | release t e =>
    simp only [machine, PipeWait.step] at h
    split at h
    · rename_i hpc
      exact hi.release hpc h
    · cases h
  | signal t =>
    cases h
    refine hi.calm fun u hu => ?_
    by_cases hut : u = t
    · subst hut
      rw [Function.update_self] at hu
      cases hu
    · rwa [Function.update_of_ne hut] at hu
  | deliver t =>
    simp only [machine, PipeWait.step] at h
    split at h
    · cases h
      exact hi.calm fun _ hu => hu
    · cases h

theorem Inv.init (h : machine.init s) : Inv s := by
  obtain ⟨-, -, -, -, hpc⟩ := h
  refine ⟨fun t ht => ?_, fun t c ht => ?_, fun t => ?_⟩
  · rw [hpc] at ht
    cases ht
  · rw [hpc] at ht
    cases ht
  · rw [hpc]
    trivial

/-- **In every state of a run in which no queue is walked past a task on its way to sleep, no wakeup is lost.** -/
theorem noLostWakeup_of_clear (l : List Label) (s s' : System) (h0 : machine.init s) (h : machine.RunOk Clear s l s') :
    NoLostWakeup s' :=
  (machine.runOk_invariant (fun _ _ _ hi hok hs => Inv.step hi hok hs) l s s' (.init h0) h).noLost

/-! ## A lost wakeup -/

/-- The pipe `do_pipe` makes, with its reader and its writer. -/
def madePipe : System where
  pi := ⟨⟨fun _ => 0, 65536, 0, 0, 0⟩, 1, 1, none⟩
  waitq _ := []
  wqLock _ := none
  interruptible _ := false
  signal _ := false
  pc _ := .user

theorem madePipe_init : machine.init madePipe :=
  ⟨⟨65536, some fun _ => 0, ⟨⟨fun _ => 0, 65536, 0, 0, 0⟩, 0, 0, none⟩, rfl, rfl⟩, fun _ => rfl, fun _ => rfl, fun _ => rfl,
    fun _ => rfl⟩

/-- Task 0 reads the empty pipe and is linked; task 1 writes a byte and walks the queue before task 0 stores its state. -/
def lost : List Label :=
  [.call 0 (.read 1 false), .turn 0, .turn 0, .call 1 (.write [7] 0 false), .turn 1, .turn 1, .turn 1, .turn 1, .turn 0, .turn 0]

theorem not_noLostWakeup :
    ¬∀ (l : List Label) (s s' : System), machine.init s → machine.run s l = some s' → NoLostWakeup s' := by
  intro h
  obtain ⟨s, hs⟩ : ∃ s, machine.run madePipe lost = some s := ⟨_, rfl⟩
  have hrest : ∀ u, s.pc u = .asleep (.read 1 false) ∨ s.pc u = .user := by
    cases hs
    intro u
    by_cases h0 : u = 0
    · subst h0
      exact .inl rfl
    · by_cases h1 : u = 1
      · subst h1
        exact .inr rfl
      · right
        simp [System.go, madePipe, topTurn_pc_of_ne, h0, h1]
  have hasleep : s.pc 0 = .asleep (.read 1 false) ∧ s.interruptible 0 = true ∧ 0 < s.pi.buf.count := by
    cases hs
    exact ⟨rfl, rfl, by decide⟩
  rcases h _ _ _ madePipe_init hs 0 _ hasleep.1 hasleep.2.1 (.inl hasleep.2.2) with ⟨u, after, hu⟩ | ⟨u, rest, after, hu, -⟩
  · rcases hrest u with h | h <;> rw [h] at hu <;> cases hu
  · rcases hrest u with h | h <;> rw [h] at hu <;> cases hu

/-- Task 0 is asleep when task 1 writes. -/
theorem noLostWakeup_asleep : ∃ s, machine.RunOk Clear madePipe
    [.call 0 (.read 1 false), .turn 0, .turn 0, .turn 0, .turn 0, .call 1 (.write [7] 0 false), .turn 1, .turn 1, .turn 1] s ∧
      NoLostWakeup s := by
  have hok : ∃ s, machine.RunOk Clear madePipe
      [.call 0 (.read 1 false), .turn 0, .turn 0, .turn 0, .turn 0, .call 1 (.write [7] 0 false), .turn 1, .turn 1,
        .turn 1] s := by
    refine ⟨_, trivial, _, rfl, trivial, _, rfl, trivial, _, rfl, trivial, _, rfl, trivial, _, rfl, trivial, _, rfl, trivial, _, rfl,
      ?_, _, rfl, ?_, _, rfl, rfl⟩
    · intro t c ht
      exfalso
      by_cases h0 : t = 0
      · subst h0
        cases ht
      · by_cases h1 : t = 1
        · subst h1
          cases ht
        · simp [System.go, madePipe, topTurn_pc_of_ne, h0, h1] at ht
    · intro c hc
      cases hc
  obtain ⟨s, hs⟩ := hok
  exact ⟨s, hs, noLostWakeup_of_clear _ madePipe s madePipe_init hs⟩

end PipeWait
end Pico
