import Picomimi.Futex
/-!
# FutexRun — when the futex buckets stay safe

`Inv.move` is a step of the one task that is in a bucket's list: what it has to say of the lists and of its own place.
`queueSafe_of_orderly` follows for every run; a requeue to another bucket (`not_queueSafe`) leaves a record behind.
-/
namespace Pico
namespace Futex

open Lib Lib.Slist

/-- The task waits, and its record may be in a bucket. -/
def Pc.queued : Pc → Bool
  | .waiting _ _ _ _ | .leave _ _ | .unlink _ _ _ => true
  | .user _ | .waitLink _ _ _ _ | .waitHead _ _ _ _ | .wake _ _ _ _ | .requeue _ _ _ _ _ => false

/-- `pp` stands in the list of the bucket, before the nodes `post`. -/
def Cursor (L : Nat → List Nat) (slot : Nat) (pp : Loc Nat Nat) (post : List Nat) : Prop :=
  ∃ pre, L slot = pre ++ post ∧ pp = locAfter slot pre

/-- What holds of a task's place. -/
def Pc.Ok (s : System) (L : Nat → List Nat) (t : Nat) : Pc → Prop
  | .user _ | .waiting _ _ _ _ | .leave _ _ => True
  | .waitLink _ _ slot _ => futexHashKey (s.waiters t).uaddr = slot
  | .waitHead _ _ slot _ => futexHashKey (s.waiters t).uaddr = slot ∧ s.store.next t = s.store.head slot
  | .unlink slot pp _ => ∃ post, Cursor L slot pp post ∧ ∀ b, t ∈ L b → t ∈ post
  | .wake _ _ _ pp | .requeue _ _ _ _ pp => ∃ slot post, Cursor L slot pp post

/-- The buckets hold the lists `L`: records of waiting tasks, each in the bucket of its address. -/
structure Inv (s : System) (L : Nat → List Nat) : Prop where
  fam : s.store.Family L
  hashed : ∀ b, ∀ w ∈ L b, futexHashKey (s.waiters w).uaddr = b
  queued : ∀ b, ∀ w ∈ L b, ∃ p : Pc, s.pcs[w]? = some p ∧ p.queued = true
  ok : ∀ (t : Nat) (p : Pc), s.pcs[t]? = some p → p.Ok s L t

variable {s s' : System} {L L' : Nat → List Nat} {t : Nat} {p : Pc}

theorem Inv.safe (hi : Inv s L) : QueueSafe s where
  returned t ret ht b hon := by
    obtain ⟨p, hp, hq⟩ := hi.queued b t ((hi.fam.on_iff b t).1 hon)
    rw [ht] at hp
    cases hp
    cases hq
  hashed b w hon := hi.hashed b w ((hi.fam.on_iff b w).1 hon)

theorem Alone.of_ne (hal : Alone s t) {j : Nat} {q : Pc} (hj : j ≠ t) (hq : s.pcs[j]? = some q) : q.inList = false :=
  hal q (List.mem_eraseIdx_iff_getElem?.2 ⟨j, hj, hq⟩)

/-- **A step of one task**, when the others' places do not notice. -/
theorem Inv.set (hi : Inv s L) (hp : s.pcs[t]? = some p) {store : Slist Nat Nat} {waiters : Nat → Waiter}
    {p' : Pc} (hfam : store.Family L') (hhash : ∀ b, ∀ w ∈ L' b, futexHashKey (waiters w).uaddr = b)
    (hsub : ∀ b, ∀ w ∈ L' b, w ≠ t → ∃ c, w ∈ L c) (ht : ∀ b, t ∈ L' b → p'.queued = true)
    (hok : p'.Ok { s with store := store, waiters := waiters, pcs := s.pcs.set t p' } L' t)
    (hothers : ∀ (j : Nat) (q : Pc), j ≠ t → s.pcs[j]? = some q →
      q.Ok { s with store := store, waiters := waiters, pcs := s.pcs.set t p' } L' j) :
    Inv { s with store := store, waiters := waiters, pcs := s.pcs.set t p' } L' := by
  have hlt : t < s.pcs.length := (List.getElem?_eq_some_iff.1 hp).1
  refine ⟨hfam, hhash, fun b w hw => ?_, fun j q hj' => ?_⟩
  · by_cases hwt : w = t
    · subst hwt
      exact ⟨p', List.getElem?_set_self hlt, ht b hw⟩
    · obtain ⟨c, hc⟩ := hsub b w hw hwt
      obtain ⟨q, hq, hqueued⟩ := hi.queued c w hc
      exact ⟨q, (List.getElem?_set_ne (Ne.symm hwt)).trans hq, hqueued⟩
  · by_cases hj : j = t
    · subst hj
      rw [List.getElem?_set_self hlt] at hj'
      cases hj'
      exact hok
    · exact hothers j q hj ((List.getElem?_set_ne (Ne.symm hj)).symm.trans hj')

/-- **A step of the only task that uses a list**: of the others, only a record that is not linked yet has something to
say. -/
theorem Inv.move (hi : Inv s L) (hal : Alone s t) (hp : s.pcs[t]? = some p) {store : Slist Nat Nat} {waiters : Nat → Waiter}
    {p' : Pc} (hfam : store.Family L') (hhash : ∀ b, ∀ w ∈ L' b, futexHashKey (waiters w).uaddr = b)
    (hsub : ∀ b, ∀ w ∈ L' b, w ≠ t → ∃ c, w ∈ L c) (hw : ∀ w, (∀ b, w ∉ L b) → waiters w = s.waiters w)
    (ht : ∀ b, t ∈ L' b → p'.queued = true)
    (hok : p'.Ok { s with store := store, waiters := waiters, pcs := s.pcs.set t p' } L' t) :
    Inv { s with store := store, waiters := waiters, pcs := s.pcs.set t p' } L' := by
  refine hi.set hp hfam hhash hsub ht hok fun j q hj hq => ?_
  have hin := hal.of_ne hj hq
  have hold := hi.ok j q hq
  cases q with
  | user _ => trivial
  | waiting _ _ _ _ => trivial
  | leave _ _ => trivial
  | waitLink _ _ slot _ =>
    show futexHashKey (waiters j).uaddr = slot
    rw [hw j fun b hb => ?_]
    · exact hold
    · obtain ⟨q, hq', hqueued⟩ := hi.queued b j hb
      rw [hq] at hq'
      cases hq'
      cases hqueued
  | waitHead _ _ _ _ => cases hin
  | unlink _ _ _ => cases hin
  | wake _ _ _ _ => cases hin
  | requeue _ _ _ _ _ => cases hin

/-- A task that is not queued has no record in a list. -/
theorem Inv.not_mem (hi : Inv s L) (hp : s.pcs[t]? = some p) (hq : p.queued = false) (b : Nat) : t ∉ L b := by
  intro hmem
  obtain ⟨q, hq', hqueued⟩ := hi.queued b t hmem
  rw [hp] at hq'
  cases hq'
  rw [hq] at hqueued
  cases hqueued

/-- A step that leaves the lists alone. -/
theorem Inv.stay (hi : Inv s L) (hp : s.pcs[t]? = some p) {p' : Pc} (ht : ∀ b, t ∈ L b → p'.queued = true)
    (hok : p'.Ok { s with pcs := s.pcs.set t p' } L t) : Inv { s with pcs := s.pcs.set t p' } L := by
  refine hi.set hp hi.fam hi.hashed (fun b _ hw _ => ⟨b, hw⟩) ht hok fun j q _ hq => ?_
  have hold := hi.ok j q hq
  cases q <;> exact hold

theorem Inv.call (hi : Inv s L) {ret : Int} (hp : s.pcs[t]? = some (.user ret))
    (uaddr op val : Nat) (timeout : Option (Int × Int)) (uaddr2 jiffies : Nat) :
    Inv (sysFutex s t uaddr op val timeout uaddr2 jiffies) L := by
  have hout : ∀ b, t ∉ L b := hi.not_mem hp rfl
  have hback : ∀ p' : Pc, p'.Ok { s with pcs := s.pcs.set t p' } L t → Inv { s with pcs := s.pcs.set t p' } L :=
    fun p' hok => hi.stay hp (fun b hb => absurd hb (hout b)) hok
  unfold sysFutex
  dsimp only
  split
  · exact hback _ trivial
  · split
    · split
      · exact hback _ trivial
      · refine hi.set hp (hi.fam.setNext hout none) (fun b w hw => ?_) (fun b _ hw _ => ⟨b, hw⟩)
          (fun b hb => absurd hb (hout b)) ?_ fun j q hj hq => ?_
        · rw [Function.update_of_ne (fun (h : w = t) => hout b (h ▸ hw))]
          exact hi.hashed b w hw
        · simp [Pc.Ok]
        · -- the record is the task's own
          have hold := hi.ok j q hq
          cases q with
          | waitLink _ _ slot _ =>
            show futexHashKey (Function.update s.waiters t ⟨uaddr, val⟩ j).uaddr = slot
            rw [Function.update_of_ne hj]
            exact hold
          | waitHead _ _ slot _ =>
            show futexHashKey (Function.update s.waiters t ⟨uaddr, val⟩ j).uaddr = slot ∧
              Function.update s.store.next t none j = s.store.head slot
            rw [Function.update_of_ne hj, Function.update_of_ne hj]
            exact hold
          | user _ | waiting _ _ _ _ | leave _ _ => trivial
          | unlink _ _ _ | wake _ _ _ _ | requeue _ _ _ _ _ => exact hold
    · split
      · exact hback _ ⟨_, L _, [], rfl, rfl⟩
      · split
        · split
          · exact hback _ trivial
          · exact hback _ ⟨_, L _, [], rfl, rfl⟩
        · exact hback _ trivial

/-! ## The turns -/

/-- The record is put at the front of its bucket. -/
theorem Inv.waitHead (hi : Inv s L) (hal : Alone s t) {uaddr val slot deadline : Nat}
    (hp : s.pcs[t]? = some (.waitHead uaddr val slot deadline)) :
    Inv { s with store := s.store.write (.head slot) (some t), pcs := s.pcs.set t (.waiting uaddr val slot deadline) }
      (Function.update L slot (t :: L slot)) := by
  have hout : ∀ b, t ∉ L b := hi.not_mem hp rfl
  obtain ⟨hkey, hnext⟩ := hi.ok t _ hp
  refine hi.move hal hp (hi.fam.push hout hnext) (fun b w hw => ?_) (fun b w hw hne => ?_) (fun _ _ => rfl) (fun _ _ => rfl)
    trivial
  · rcases mem_push.1 hw with ⟨rfl, rfl⟩ | hw
    · exact hkey
    · exact hi.hashed b w hw
  · rcases mem_push.1 hw with ⟨-, h⟩ | hw
    · exact absurd h hne
    · exact ⟨b, hw⟩

/-- The walk goes past a record. -/
theorem Cursor.next {slot w : Nat} {pre post : List Nat} (hL : L slot = pre ++ w :: post) :
    Cursor L slot (.next w) post :=
  ⟨pre ++ [w], by rw [hL, List.append_assoc]; rfl, (locAfter_concat slot pre w).symm⟩

/-- **The waiter takes its own record out**, or looks further. -/
theorem Inv.unlink (hi : Inv s L) (hal : Alone s t) (hp : s.pcs[t]? = some p) {slot : Nat} {pp : Loc Nat Nat} (ret : Int)
    {post : List Nat} (hcur : Cursor L slot pp post) (hown : ∀ b, t ∈ L b → t ∈ post) :
    ∃ L', Inv (unlinkTurn s t slot pp ret) L' := by
  obtain ⟨pre, hL, rfl⟩ := hcur
  unfold unlinkTurn
  rw [hi.fam.read_locAfter hL]
  cases post with
  | nil => exact ⟨L, hi.stay hp (fun b hb => by cases hown b hb) trivial⟩
  | cons w post =>
    simp only [List.head?_cons]
    by_cases hw : w = t
    · subst hw
      rw [if_pos rfl]
      refine ⟨_, hi.move hal hp (hi.fam.remove hL) (fun b x hx => ?_) (fun b x hx _ => ?_) (fun _ _ => rfl)
        (fun b hb => ?_) trivial⟩
      · exact hi.hashed b x (hi.fam.mem_of_remove hL hx)
      · exact ⟨b, hi.fam.mem_of_remove hL hx⟩
      · exact absurd hb (hi.fam.not_mem_remove hL b)
    · rw [if_neg hw]
      refine ⟨L, hi.stay hp (fun _ _ => rfl) ⟨post, .next hL, fun b hb => ?_⟩⟩
      exact (List.mem_cons.1 (hown b hb)).resolve_left (Ne.symm hw)

/-- **`FUTEX_WAKE` takes a record out**, or looks further. -/
theorem Inv.wake (hi : Inv s L) (hal : Alone s t) {uaddr val woken : Nat} {pp : Loc Nat Nat}
    (hp : s.pcs[t]? = some (.wake uaddr val woken pp)) : ∃ L', Inv (wakeTurn s t uaddr val woken pp) L' := by
  have hout : ∀ b, t ∉ L b := hi.not_mem hp rfl
  obtain ⟨slot, post, pre, hL, rfl⟩ := hi.ok t _ hp
  unfold wakeTurn
  rw [hi.fam.read_locAfter hL]
  cases post with
  | nil => exact ⟨L, hi.stay hp (fun b hb => absurd hb (hout b)) trivial⟩
  | cons w post =>
    simp only [List.head?_cons]
    split
    · exact ⟨L, hi.stay hp (fun b hb => absurd hb (hout b)) trivial⟩
    · split
      · refine ⟨Function.update L slot (pre ++ post), hi.move hal hp
          ((hi.fam.remove hL).setNext (hi.fam.not_mem_remove hL) none) (fun b x hx => hi.hashed b x (hi.fam.mem_of_remove hL hx))
          (fun b x hx _ => ⟨b, hi.fam.mem_of_remove hL hx⟩) (fun _ _ => rfl)
          (fun b hb => absurd (hi.fam.mem_of_remove hL hb) (hout b)) ?_⟩
        exact ⟨slot, post, pre, Function.update_self _ _ _, rfl⟩
      · exact ⟨L, hi.stay hp (fun b hb => absurd hb (hout b)) ⟨slot, post, .next hL⟩⟩

/-- Where the walk of a list stands after a record is put at the front of a list. -/
theorem Cursor.push {slot : Nat} {pre post : List Nat} (slot2 w : Nat) (hL : L slot = pre ++ post) :
    ∃ post', Cursor (Function.update L slot2 (w :: L slot2)) slot (locAfter slot pre) post' := by
  by_cases hs : slot = slot2
  · subst hs
    by_cases hpre : pre = []
    · subst hpre
      exact ⟨w :: L slot, [], Function.update_self _ _ _, rfl⟩
    · exact ⟨post, w :: pre, by rw [Function.update_self, hL]; rfl, (locAfter_cons slot w hpre).symm⟩
  · exact ⟨post, pre, by rw [Function.update_of_ne hs, hL], rfl⟩

/-- **`FUTEX_REQUEUE` takes a record out or moves it**, or looks further. -/
theorem Inv.requeue (hi : Inv s L) (hal : Alone s t) {uaddr val uaddr2 woken : Nat} {pp : Loc Nat Nat}
    (hp : s.pcs[t]? = some (.requeue uaddr val uaddr2 woken pp)) :
    ∃ L', Inv (requeueTurn s t uaddr val uaddr2 woken pp) L' := by
  have hout : ∀ b, t ∉ L b := hi.not_mem hp rfl
  obtain ⟨slot, post, pre, hL, rfl⟩ := hi.ok t _ hp
  unfold requeueTurn
  rw [hi.fam.read_locAfter hL]
  cases post with
  | nil => exact ⟨L, hi.stay hp (fun b hb => absurd hb (hout b)) trivial⟩
  | cons w post =>
    simp only [List.head?_cons]
    split
    · exact ⟨L, hi.stay hp (fun b hb => absurd hb (hout b)) ⟨slot, post, .next hL⟩⟩
    · have hrem := hi.fam.remove hL
      have hnot := hi.fam.not_mem_remove hL
      split
      · refine ⟨Function.update L slot (pre ++ post), hi.move hal hp (hrem.setNext hnot none)
          (fun b x hx => hi.hashed b x (hi.fam.mem_of_remove hL hx)) (fun b x hx _ => ⟨b, hi.fam.mem_of_remove hL hx⟩)
          (fun _ _ => rfl) (fun b hb => absurd (hi.fam.mem_of_remove hL hb) (hout b)) ?_⟩
        exact ⟨slot, post, pre, Function.update_self _ _ _, rfl⟩
      · -- to the front of the other address's bucket
        have hwL : w ∈ L slot := by
          rw [hL]
          simp
        have hpush := (hrem.setNext hnot (((s.store.write (locAfter slot pre) (s.store.next w))).head
          (futexHashKey uaddr2))).push (b := futexHashKey uaddr2) hnot (Function.update_self _ _ _)
        have hmem : ∀ b x, x ∈ Function.update (Function.update L slot (pre ++ post)) (futexHashKey uaddr2)
            (w :: Function.update L slot (pre ++ post) (futexHashKey uaddr2)) b →
            (b = futexHashKey uaddr2 ∧ x = w) ∨ (x ∈ L b ∧ x ≠ w) := by
          intro b x hx
          exact (mem_push.1 hx).imp_right (hi.fam.mem_remove hL).1
        refine ⟨_, hi.move hal hp hpush (fun b x hx => ?_) (fun b x hx _ => ?_) (fun x hx => ?_) (fun b hb => ?_) ?_⟩
        · rcases hmem b x hx with ⟨rfl, rfl⟩ | ⟨hx, hne⟩
          · rw [Function.update_self]
          · rw [Function.update_of_ne hne]
            exact hi.hashed b x hx
        · rcases hmem b x hx with ⟨-, rfl⟩ | ⟨hx, -⟩
          · exact ⟨slot, hwL⟩
          · exact ⟨b, hx⟩
        · exact Function.update_of_ne (fun (h : x = w) => hx slot (h ▸ hwL)) _ _
        · rcases hmem b t hb with ⟨-, rfl⟩ | ⟨hx, -⟩
          · exact absurd hwL (hout slot)
          · exact absurd hx (hout b)
        · obtain ⟨post', hcur⟩ := Cursor.push (futexHashKey uaddr2) w
            (show Function.update L slot (pre ++ post) slot = pre ++ post from Function.update_self _ _ _)
          exact ⟨slot, post', hcur⟩

theorem Inv.turn (hi : Inv s L) {signal : Bool} {jiffies : Nat} (hp : s.pcs[t]? = some p)
    (hok : OrderlyAt s t p) (h : turn s t signal jiffies p = some s') : ∃ L', Inv s' L' := by
  cases p with
  | user ret => cases h
  | waitLink uaddr val slot deadline =>
    cases h
    have hout : ∀ b, t ∉ L b := hi.not_mem hp rfl
    have hkey : futexHashKey (s.waiters t).uaddr = slot := hi.ok t _ hp
    exact ⟨L, hi.move hok hp (hi.fam.setNext hout _) hi.hashed (fun b _ hw _ => ⟨b, hw⟩) (fun _ _ => rfl)
      (fun b hb => absurd hb (hout b)) ⟨hkey, Function.update_self _ _ _⟩⟩
  | waitHead uaddr val slot deadline =>
    cases h
    exact ⟨_, hi.waitHead hok hp⟩
  | waiting uaddr val slot deadline =>
    simp only [Futex.turn] at h
    split at h
    · cases h
      exact ⟨L, hi⟩
    · cases h
      exact ⟨L, hi.stay hp (fun _ _ => rfl) trivial⟩
  | leave slot ret =>
    cases h
    refine hi.unlink hok.1 hp ret ⟨[], rfl, rfl⟩ fun b hb => ?_
    -- its record is in the bucket the walk starts from
    rcases hok.2 with hkey | hnone
    · rw [← hkey, hi.hashed b t hb]
      exact hb
    · exact absurd ((hi.fam.on_iff b t).2 hb) (hnone b)
  | unlink slot pp ret =>
    cases h
    obtain ⟨post, hcur, hown⟩ := hi.ok t _ hp
    exact hi.unlink hok hp ret hcur hown
  | wake uaddr val woken pp =>
    cases h
    exact hi.wake hok hp
  | requeue uaddr val uaddr2 woken pp =>
    cases h
    exact hi.requeue hok hp

/-- **An orderly step keeps the buckets.** -/
theorem Inv.step {a : Label} (hi : Inv s L) (hok : Orderly s a) (h : machine.step s a = some s') : ∃ L', Inv s' L' := by
  cases a with
  | store addr val =>
    cases h
    exact ⟨L, ⟨hi.fam, hi.hashed, hi.queued, fun t p hp => by
      have := hi.ok t p hp
      cases p <;> exact this⟩⟩
  | call t uaddr op val timeout uaddr2 jiffies =>
    simp only [machine, Futex.step] at h
    split at h
    · rename_i ret hp
      cases h
      exact ⟨L, hi.call hp uaddr op val timeout uaddr2 jiffies⟩
    · cases h
  | turn t signal jiffies =>
    simp only [machine, Futex.step] at h
    split at h
    · rename_i p hp
      exact hi.turn hp (hok p hp) h
    · cases h

theorem Inv.init (h : machine.init s) : Inv s fun _ => [] where
  fam := ⟨h.2, fun _ => List.nodup_nil, fun _ _ _ hx => absurd hx List.not_mem_nil⟩
  hashed _ _ hw := absurd hw List.not_mem_nil
  queued _ _ hw := absurd hw List.not_mem_nil
  ok t p hp := by
    obtain ⟨ret, rfl⟩ := h.1 p (List.mem_of_getElem? hp)
    trivial

/-- **Whatever the tasks do, the buckets are safe in every state of a run** in which the lists are used by one task at a time
and no waiter leaves while its record is in another bucket than the one it was put in. -/
theorem queueSafe_of_orderly (l : List Label) (s s' : System) (h0 : machine.init s) (h : machine.RunOk Orderly s l s') :
    QueueSafe s' := by
  obtain ⟨L, hi⟩ := machine.runOk_invariant (P := fun s => ∃ L, Inv s L)
    (fun _ _ _ ⟨_, hi⟩ hok hs => hi.step hok hs) l s s' ⟨_, .init h0⟩ h
  exact hi.safe

/-! ## A waiter that is moved -/

/-- Two tasks, and user memory full of zeros. -/
def twoTasks : System := ⟨fun _ => 0, ⟨fun _ => none, fun _ => none⟩, fun _ => ⟨0, 0⟩, [.user 0, .user 0]⟩

theorem twoTasks_init : machine.init twoTasks := by
  refine ⟨fun p hp => ⟨0, ?_⟩, fun _ => rfl⟩
  rcases List.mem_cons.1 hp with rfl | hp
  · rfl
  · exact List.mem_singleton.1 hp

/-- Task 0 waits on the address 4096. -/
def waits : List Label := [.call 0 4096 futexWait 0 none 0 0, .turn 0 false 0, .turn 0 false 0]

/-- The value changes, and task 0 leaves. -/
def wakes : List Label := [.store 4096 1, .turn 0 false 0, .turn 0 false 0]

/-- Task 1 moves the record to the address 8192 before task 0 leaves. -/
theorem not_queueSafe :
    ¬∀ (l : List Label) (s s' : System), machine.init s → machine.run s l = some s' → QueueSafe s' := by
  intro h
  have hrun : (machine.run twoTasks (waits ++
      [.call 1 4096 futexRequeue 0 none 8192 0, .turn 1 false 0, .turn 1 false 0] ++ wakes)).map
        (fun s => (s.pcs[0]?, s.store.head (futexHashKey 8192))) = some (some (.user 0), some 0) := rfl
  obtain ⟨s, hs, hst⟩ := Option.map_eq_some_iff.1 hrun
  simp only [Prod.mk.injEq] at hst
  exact (h _ _ s twoTasks_init hs).returned 0 0 hst.1 (futexHashKey 8192) ⟨[], hst.2⟩

/-- A wait alone. -/
theorem queueSafe_alone : ∃ s, machine.RunOk Orderly twoTasks (waits ++ wakes) s ∧ QueueSafe s := by
  have hal : ∀ p : Pc, ∀ q ∈ [p, .user 0].eraseIdx 0, q.inList = false := by
    intro p q hq
    rw [List.mem_singleton.1 (show q ∈ [.user 0] from hq)]
    rfl
  have hok : ∃ s, machine.RunOk Orderly twoTasks (waits ++ wakes) s := by
    refine ⟨_, trivial, _, rfl, ?_, _, rfl, ?_, _, rfl, trivial, _, rfl, ?_, _, rfl, ?_, _, rfl, rfl⟩
    · rintro p ⟨⟩
      exact hal _
    · rintro p ⟨⟩
      exact hal _
    · rintro p ⟨⟩
      trivial
    · rintro p ⟨⟩
      exact ⟨hal _, .inl rfl⟩
  obtain ⟨s, hs⟩ := hok
  exact ⟨s, hs, queueSafe_of_orderly _ twoTasks s twoTasks_init hs⟩

end Futex
end Pico
