import Picomimi.Timer
/-!
# TimerLaw — the punctuality of the timer wheel

`run_timer_softirq` as one call, the callbacks leaving the timers alone.  A slot holds every timer whose expiry has its low
bits, and the loop tells those of this tick from those of later rounds by the sign of `expires - now`.  As long as every
timer on the wheel lies in the slot of its expiry and expires in the future (`Ahead`), one tick takes off exactly the
timers that expire at it, and leaves the others as they were (`Ahead.tick`); so a timer fires once, at its time
(`punctual_of_run`).
-/
namespace Pico
namespace Timer

open Lib

/-- The loop of `run_timer_softirq` from `p` on, with `n` saved, when the callbacks leave the timers alone; the entries
whose callbacks ran, in their order. -/
def softirqLoop (slot : Fin 256) (now : Nat) : Nat → State → Node → Node → Option (List Node × State)
  | 0, _, _, _ => none
  | fuel + 1, s, p, n =>
    let u := turn s slot now p n
    match u.pc with
    | .idle => some ([], u)
    | .walk _ _ p' n' => softirqLoop slot now fuel u p' n'
    | .fire _ _ n' => (softirqLoop slot now fuel u n' (u.links.next n')).map fun r => (p :: r.1, r.2)

def runTimerSoftirq (s : State) (fuel : Nat) : Option (List Node × State) :=
  let slot := slotOf s.jiffies
  let p := s.links.next (.slot slot)
  softirqLoop slot s.jiffies fuel s p (s.links.next p)

/-- `init_timer`. -/
def initTimer (s : State) (t : Nat) : State :=
  { s with
    links := s.links.initListHead (.timer t)
    expires := Function.update s.expires (.timer t) 0
    function := Function.update s.function (.timer t) false }

/-- `init_timer`, and what its callers write before they arm the timer. -/
def setup (s : State) (t expires : Nat) (function : Bool) : State :=
  let s := initTimer s t
  { s with
    expires := Function.update s.expires (.timer t) expires
    function := Function.update s.function (.timer t) function }

/-! ## The lists of the wheel -/

/-- **The slots as lists** of timers that are `ready`, which is to say initialised; one that is on none is alone. -/
structure Slots (L : Links Node) (ready : Nat → Prop) (q : Fin 256 → List Node) : Prop where
  lists : L.Family Node.slot q
  mem : ∀ t i, Node.timer t ∈ q i → ready t
  off : ∀ t, ready t → (∀ i, Node.timer t ∉ q i) → L.next (.timer t) = .timer t ∧ L.prev (.timer t) = .timer t

variable {s s' u : State} {q q' : Fin 256 → List Node} {t v : Nat} {L : Links Node} {ready : Nat → Prop} {i slot : Fin 256}
  {now fuel fuel' : Nat} {p n x : Node} {r : List Node × State}

/-- What `list_empty` says of an initialised timer. -/
theorem Slots.listEmpty (h : Slots L ready q) (ht : ready t) :
    L.listEmpty (.timer t) = true ↔ ∀ i, Node.timer t ∉ q i := by
  unfold Links.listEmpty
  rw [decide_eq_true_iff]
  constructor
  · intro heq i hi
    exact (h.lists.ring i).next_ne hi heq
  · exact fun hno => (h.off t ht hno).1

theorem Slots.pending (h : Slots s.links ready q) (ht : ready t) :
    timerPending s t = true ↔ ∃ i, Node.timer t ∈ q i := by
  unfold timerPending
  rw [Bool.not_eq_true', ← Bool.not_eq_true, h.listEmpty ht]
  push Not
  rfl

/-- A node that is no head and on no list. -/
def Apart (q : Fin 256 → List Node) (x : Node) : Prop := ∀ i, x ∉ Node.slot i :: q i

theorem apart_timer : Apart q (.timer t) ↔ ∀ i, Node.timer t ∉ q i := by
  unfold Apart
  simp

theorem Slots.add (h : Slots L ready q) (ht : ready t) (hno : ∀ i, Node.timer t ∉ q i) (i : Fin 256) :
    Slots (L.listAddTail (.timer t) (.slot i)) ready (Function.update q i (q i ++ [.timer t])) := by
  refine ⟨h.lists.listAddTail (fun j he => by cases he) hno, fun u j hu => ?_, fun u hu hnou => ?_⟩
  · rcases mem_append_iff.1 hu with hu | ⟨hu, -⟩
    · exact h.mem u j hu
    · cases hu
      exact ht
  · have hut : u ≠ t := by
      rintro rfl
      exact hnou i (mem_append_iff.2 (.inr ⟨rfl, rfl⟩))
    have hnoq : ∀ j, Node.timer u ∉ q j := fun j hj => hnou j (mem_append_iff.2 (.inl hj))
    obtain ⟨hnext, hprev⟩ := Links.listAddTail_frame (h.lists.ring i) (apart_timer.2 hnoq i)
      (fun he => hut (Node.timer.inj he))
    rw [hnext, hprev]
    exact h.off u hu hnoq

theorem Slots.mem_erase (h : Slots L ready q) (hm : x ∈ q i) {y : Node} {j : Fin 256} :
    y ∈ Function.update q i ((q i).erase x) j ↔ y ≠ x ∧ y ∈ q j := by
  have hnd : (q i).Nodup := (List.nodup_cons.1 (h.lists.ring i).nodup).2
  by_cases hj : j = i
  · subst hj
    rw [Function.update_self, hnd.mem_erase_iff]
  · rw [Function.update_of_ne hj]
    refine ⟨fun hy => ⟨?_, hy⟩, fun hy => hy.2⟩
    rintro rfl
    exact hj (h.lists.apart j i _ hy hm)

theorem Slots.del (h : Slots L ready q) (hm : Node.timer t ∈ q i) :
    Slots (listDelInit L (.timer t)) ready (Function.update q i ((q i).erase (.timer t))) := by
  have hlists := h.lists.listDel (.timer t) hm
  refine ⟨hlists, fun u j hu => h.mem u j ((h.mem_erase hm).1 hu).2, fun u hu hnou => ?_⟩
  by_cases hut : u = t
  · subst hut
    rw [listDelInit, Links.next_listDel, Links.prev_listDel, if_pos rfl, if_pos rfl]
    exact ⟨rfl, rfl⟩
  · have hnoq : ∀ j, Node.timer u ∉ q j := fun j hj =>
      hnou j ((h.mem_erase hm).2 ⟨fun he => hut (Node.timer.inj he), hj⟩)
    obtain ⟨hnext, hprev⟩ := Links.listDel_frame (.timer t) (h.lists.ring i) hm (apart_timer.2 hnoq i)
    rw [listDelInit, hnext, hprev]
    exact h.off u hu hnoq

/-- **`init_timer` on a timer that is alone** leaves it so. -/
theorem Slots.init (h : Slots L ready q) (ht : ready t) (hno : ∀ i, Node.timer t ∉ q i) :
    L.initListHead (.timer t) = L :=
  Links.initListHead_self (h.off t ht hno).1 (h.off t ht hno).2

/-- **Fields of other nodes are not read.** -/
theorem Slots.congr {L' : Links Node} (h : Slots L ready q)
    (hhead : ∀ i, L'.next (.slot i) = L.next (.slot i) ∧ L'.prev (.slot i) = L.prev (.slot i))
    (htimer : ∀ t, ready t → L'.next (.timer t) = L.next (.timer t) ∧ L'.prev (.timer t) = L.prev (.timer t)) :
    Slots L' ready q := by
  refine ⟨⟨fun i => (h.lists.ring i).congr fun y hy => ?_, h.lists.inj, h.lists.head_not_mem, h.lists.apart⟩, h.mem,
    fun t ht hno => ?_⟩
  · cases y with
    | slot j => exact hhead j
    | timer t => exact htimer t (h.mem t i ((List.mem_cons.1 hy).resolve_left fun he => by cases he))
  · obtain ⟨hn, hp⟩ := htimer t ht
    rw [hn, hp]
    exact h.off t ht hno

/-! ## One call of `run_timer_softirq` -/

theorem softirqLoop_mono : ∀ {fuel fuel' : Nat} {s : State} {p n : Node}, softirqLoop slot now fuel s p n = some r →
    fuel ≤ fuel' → softirqLoop slot now fuel' s p n = some r := by
  intro fuel
  induction fuel generalizing r with
  | zero => intro _ _ _ _ h; cases h
  | succ fuel ih =>
    intro fuel' s p n h hle
    obtain ⟨fuel', rfl⟩ : ∃ k, fuel' = k + 1 := ⟨fuel' - 1, by omega⟩
    have hle' := Nat.le_of_succ_le_succ hle
    unfold softirqLoop at h ⊢
    dsimp only at h ⊢
    cases hpc : (turn s slot now p n).pc with
    | idle =>
      rw [hpc] at h
      exact h
    | walk a b p' n' =>
      rw [hpc] at h
      exact ih h hle'
    | fire a b n' =>
      rw [hpc] at h
      obtain ⟨r', hr', rfl⟩ := Option.map_eq_some_iff.1 h
      simp only [ih hr' hle', Option.map_some]

/-- The first node after `a` on a segment. -/
theorem next_eq_headD {xs : List Node} {a b : Node} (h : L.Seg a xs b) : L.next a = xs.headD b := by
  cases xs with
  | nil => exact h.1
  | cons x xs => exact h.1.1

/-- What a call of `run_timer_softirq` leaves of the rest of the wheel. -/
structure Swept (s u : State) (q : Fin 256 → List Node) (slot : Fin 256) : Prop where
  expires : u.expires = s.expires
  function : u.function = s.function
  jiffies : u.jiffies = s.jiffies
  pc : u.pc = .idle
  frame : ∀ x, x ∉ Node.slot slot :: q slot → u.links.next x = s.links.next x ∧ u.links.prev x = s.links.prev x

/-- The timers that a call leaves on their list. -/
def later (s : State) (now : Nat) (x : Node) : Bool := notYet (s.expires x) now

/-- The timers whose callbacks run. -/
def fires (s : State) (now : Nat) (x : Node) : Bool := !notYet (s.expires x) now && s.function x

theorem turn_head : turn s slot now (.slot slot) n = { s with pc := .idle } := if_pos rfl

/-- A turn at a timer of a later round. -/
theorem turn_later (hx : x ≠ .slot slot) (hyet : notYet (s.expires x) now = true) :
    turn s slot now x n = { s with pc := .walk slot now n (s.links.next n) } := by
  unfold turn
  rw [if_neg hx, if_pos hyet]

/-- **A turn at a timer of this tick** takes it off; its callback runs if it has one. -/
theorem turn_due (s : State) (slot : Fin 256) (n : Node) (hyet : notYet (s.expires (.timer t)) now = false) :
    ∃ u, turn s slot now (.timer t) n = u ∧ u.links = listDelInit s.links (.timer t) ∧ u.expires = s.expires ∧
      u.function = s.function ∧ u.jiffies = s.jiffies ∧
      u.pc = if s.function (.timer t) = true then .fire slot now n else .walk slot now n (u.links.next n) := by
  refine ⟨_, rfl, ?_⟩
  unfold turn
  rw [if_neg (fun he => by cases he), if_neg (by rw [hyet]; exact Bool.false_ne_true)]
  dsimp only
  split
  · exact ⟨rfl, rfl, rfl, rfl, rfl⟩
  · exact ⟨rfl, rfl, rfl, rfl, rfl⟩

/-- **The loop takes off the timers that are due** and leaves the later ones; the induction is on the entries it has
still to come by. -/
theorem softirqLoop_spec (slot : Fin 256) (now : Nat) : ∀ (rest done : List Node) {s : State} {q : Fin 256 → List Node}
    {fuel : Nat}, Slots s.links ready q → q slot = done ++ rest → rest.length < fuel →
    ∃ u, softirqLoop slot now fuel s (rest.headD (.slot slot)) (s.links.next (rest.headD (.slot slot))) =
        some (rest.filter (fires s now), u) ∧
      Slots u.links ready (Function.update q slot (done ++ rest.filter (later s now))) ∧
      Swept s u q slot
  | [], done, s, q, fuel, h, hq, hf => by
    obtain ⟨fuel, rfl⟩ : ∃ k, fuel = k + 1 := ⟨fuel - 1, by simp only [List.length_nil] at hf; omega⟩
    refine ⟨{ s with pc := .idle }, ?_, ?_, ⟨rfl, rfl, rfl, rfl, fun _ _ => ⟨rfl, rfl⟩⟩⟩
    · simp only [List.headD_nil, softirqLoop, turn_head, List.filter_nil]
    · rw [List.filter_nil, ← hq, Function.update_eq_self]
      exact h
  | x :: rest, done, s, q, fuel, h, hq, hf => by
    obtain ⟨fuel, rfl⟩ : ∃ k, fuel = k + 1 := ⟨fuel - 1, by omega⟩
    have hlen : rest.length < fuel := by
      rw [List.length_cons] at hf
      omega
    have hx : x ∈ q slot := by
      rw [hq]
      simp
    have hxslot : ∀ j, x ≠ .slot j := fun j he => h.lists.head_not_mem j slot (he ▸ hx)
    have hring := h.lists.ring slot
    rw [hq] at hring
    have hnext : s.links.next x = rest.headD (.slot slot) := next_eq_headD (Links.seg_append.1 hring.seg).2
    rw [List.headD_cons, hnext]
    simp only [softirqLoop]
    cases hyet : notYet (s.expires x) now with
    | true =>
      obtain ⟨u, hu, hslots, hsw⟩ := softirqLoop_spec slot now rest (done ++ [x])
        (s := { s with pc := .walk slot now (rest.headD (.slot slot)) (s.links.next (rest.headD (.slot slot))) }) h
        (by rw [hq, List.append_assoc]; rfl) hlen
      refine ⟨u, ?_, ?_, ⟨hsw.expires, hsw.function, hsw.jiffies, hsw.pc, hsw.frame⟩⟩
      · rw [turn_later (hxslot slot) hyet]
        have hno : ¬fires s now x = true := by simp [fires, hyet]
        rw [List.filter_cons_of_neg hno]
        exact hu
      · rw [List.filter_cons_of_pos (show later s now x = true from hyet)]
        rw [List.append_assoc] at hslots
        exact hslots
    | false =>
      obtain ⟨t, rfl⟩ : ∃ t, x = .timer t := by
        cases x with
        | slot j => exact absurd rfl (hxslot j)
        | timer t => exact ⟨t, rfl⟩
      obtain ⟨w, hw, hlinks, hexp, hfun, hjif, hpc⟩ := turn_due s slot (rest.headD (.slot slot)) hyet
      have hdel := h.del hx
      rw [← hlinks] at hdel
      have hnd : (done ++ Node.timer t :: rest).Nodup := (List.nodup_cons.1 hring.nodup).2
      have hdone : Node.timer t ∉ done := fun hm => (List.nodup_append.1 hnd).2.2 _ hm _ (by simp) rfl
      have herase : (q slot).erase (.timer t) = done ++ rest := by
        rw [hq, List.erase_append_right _ hdone, List.erase_cons_head]
      rw [herase] at hdel
      obtain ⟨u, hu, hslots, hsw⟩ := softirqLoop_spec slot now rest done hdel (Function.update_self ..) hlen
      have hsw' : Swept s u q slot := by
        refine ⟨hsw.expires.trans hexp, hsw.function.trans hfun, hsw.jiffies.trans hjif, hsw.pc, fun y hy => ?_⟩
        obtain ⟨hn, hp⟩ := Links.listDel_frame (.timer t) (h.lists.ring slot) hx hy
        have hy' : y ∉ Node.slot slot :: Function.update q slot (done ++ rest) slot := by
          rw [Function.update_self]
          rw [hq] at hy
          simp only [List.mem_cons, List.mem_append, not_or] at hy ⊢
          exact ⟨hy.1, hy.2.1, hy.2.2.2⟩
        obtain ⟨hn', hp'⟩ := hsw.frame y hy'
        rw [hlinks] at hn' hp'
        exact ⟨hn'.trans hn, hp'.trans hp⟩
      have hlater : later w now = later s now := by
        funext y
        simp only [later, hexp]
      rw [Function.update_idem, hlater] at hslots
      refine ⟨u, ?_, ?_, hsw'⟩
      · have hfires : fires w now = fires s now := by
          funext y
          simp only [fires, hexp, hfun]
        rw [hw, hpc]
        rw [hfires] at hu
        cases hf : s.function (.timer t) with
        | true =>
          have hyes : fires s now (.timer t) = true := by simp [fires, hyet, hf]
          rw [if_pos rfl, List.filter_cons_of_pos hyes]
          simp only [hu, Option.map_some]
        | false =>
          have hno : ¬fires s now (.timer t) = true := by simp [fires, hf]
          rw [if_neg Bool.false_ne_true, List.filter_cons_of_neg hno]
          exact hu
      · have hno : ¬later s now (.timer t) = true := by simp [later, hyet]
        rw [List.filter_cons_of_neg hno]
        exact hslots

/-- **`run_timer_softirq`** ends, runs the callbacks of the timers of its slot that are due, and takes those off. -/
theorem runTimerSoftirq_spec (h : Slots s.links ready q) (hf : (q (slotOf s.jiffies)).length < fuel) :
    ∃ u, runTimerSoftirq s fuel = some ((q (slotOf s.jiffies)).filter (fires s s.jiffies), u) ∧
      Slots u.links ready (Function.update q (slotOf s.jiffies)
        ((q (slotOf s.jiffies)).filter (later s s.jiffies))) ∧
      Swept s u q (slotOf s.jiffies) := by
  obtain ⟨u, hu, hslots, hsw⟩ := softirqLoop_spec (slotOf s.jiffies) s.jiffies (q (slotOf s.jiffies)) [] h rfl hf
  refine ⟨u, ?_, hslots, hsw⟩
  unfold runTimerSoftirq
  dsimp only
  rw [next_eq_headD (h.lists.ring _).seg]
  exact hu

/-- A call that has returned did the same. -/
theorem runTimerSoftirq_some (h : Slots s.links ready q) (hr : runTimerSoftirq s fuel = some r) :
    r.1 = (q (slotOf s.jiffies)).filter (fires s s.jiffies) ∧
      Slots r.2.links ready (Function.update q (slotOf s.jiffies)
        ((q (slotOf s.jiffies)).filter (later s s.jiffies))) ∧
      Swept s r.2 q (slotOf s.jiffies) := by
  have hlen : (q (slotOf s.jiffies)).length < fuel + ((q (slotOf s.jiffies)).length + 1) := by omega
  obtain ⟨u, hu, hslots, hsw⟩ := runTimerSoftirq_spec h hlen
  have hmono := softirqLoop_mono hr (Nat.le_add_right fuel ((q (slotOf s.jiffies)).length + 1))
  unfold runTimerSoftirq at hu
  rw [hmono] at hu
  cases hu
  exact ⟨rfl, hslots, hsw⟩

/-! ## One tick -/

/-- The timer interrupt: one more tick, and a call of `run_timer_softirq`. -/
def tick (s : State) (fuel : Nat) : Option (List Node × State) :=
  runTimerSoftirq { s with jiffies := add64 s.jiffies 1 } fuel

/-- **Every timer on the wheel lies in the slot of its expiry**, which is in the future. -/
structure Ahead (s : State) (ready : Nat → Prop) (q : Fin 256 → List Node) : Prop where
  slots : Slots s.links ready q
  slot : ∀ t i, Node.timer t ∈ q i → slotOf (s.expires (.timer t)) = i
  future : ∀ t i, Node.timer t ∈ q i → notYet (s.expires (.timer t)) s.jiffies = true
  word : ∀ t i, Node.timer t ∈ q i → s.expires (.timer t) < word64
  jiffies : s.jiffies < word64

/-- How far ahead an expiry is, one tick later. -/
theorem sub64_tick {e j : Nat} (hj : j < word64) (hd : 0 < sub64 e j) :
    sub64 e (add64 j 1) = sub64 e j - 1 := by
  unfold sub64 add64 word64 at *
  omega

theorem sub64_eq_zero {e j : Nat} (he : e < word64) (hj : j < word64) : sub64 e j = 0 ↔ e = j := by
  unfold sub64 word64 at *
  omega

/-- **Of the timers ahead, those of the next tick are the ones that are not later.** -/
theorem notYet_tick {e j : Nat} (he : e < word64) (hj : j < word64) (h : notYet e j = true) :
    notYet e (add64 j 1) = true ↔ e ≠ add64 j 1 := by
  have hz := sub64_eq_zero he (add64_lt j 1)
  unfold notYet at *
  rw [decide_eq_true_iff] at h ⊢
  have ht := sub64_tick hj h.1
  rw [ht] at hz ⊢
  rw [ne_eq, ← not_congr hz]
  omega

/-- What a tick does, `fired` being the entries whose callbacks ran. -/
structure Ticked (s : State) (q : Fin 256 → List Node) (fired : List Node) (u : State) (q' : Fin 256 → List Node) :
    Prop where
  nodup : fired.Nodup
  fired : ∀ t, Node.timer t ∈ fired ↔
    (∃ i, Node.timer t ∈ q i) ∧ s.expires (.timer t) = add64 s.jiffies 1 ∧ s.function (.timer t) = true
  left : ∀ t i, Node.timer t ∈ q' i ↔ Node.timer t ∈ q i ∧ s.expires (.timer t) ≠ add64 s.jiffies 1
  swept : Swept { s with jiffies := add64 s.jiffies 1 } u q (slotOf (add64 s.jiffies 1))

/-- **A tick fires the timers that expire at it**, each once, takes them off, and leaves the others ahead. -/
theorem Ahead.tick {r : List Node × State} (h : Ahead s ready q) (hr : Timer.tick s fuel = some r) :
    ∃ q', Ahead r.2 ready q' ∧ Ticked s q r.1 r.2 q' := by
  have hnow : add64 s.jiffies 1 < word64 := add64_lt _ _
  obtain ⟨hfired, hslots, hsw⟩ := runTimerSoftirq_some
    (s := { s with jiffies := add64 s.jiffies 1 }) (q := q) h.slots hr
  dsimp only at hfired hslots hsw
  -- in the slot of the tick, the timers that stay are those of other ticks
  have hlater : ∀ t i, Node.timer t ∈ q i →
      (notYet (s.expires (.timer t)) (add64 s.jiffies 1) = true ↔ s.expires (.timer t) ≠ add64 s.jiffies 1) :=
    fun t i ht => notYet_tick (h.word t i ht) h.jiffies (h.future t i ht)
  have hleft : ∀ t i, Node.timer t ∈ Function.update q (slotOf (add64 s.jiffies 1))
      ((q (slotOf (add64 s.jiffies 1))).filter
        (later { s with jiffies := add64 s.jiffies 1 } (add64 s.jiffies 1))) i ↔
      Node.timer t ∈ q i ∧ s.expires (.timer t) ≠ add64 s.jiffies 1 := by
    intro t i
    by_cases hi : i = slotOf (add64 s.jiffies 1)
    · rw [hi, Function.update_self, List.mem_filter]
      exact and_congr_right fun ht => hlater t _ ht
    · rw [Function.update_of_ne hi]
      refine ⟨fun ht => ⟨ht, fun he => hi ?_⟩, fun ht => ht.1⟩
      rw [← h.slot t i ht, he]
  refine ⟨_, ⟨hslots, fun t i ht => ?_, fun t i ht => ?_, fun t i ht => ?_, ?_⟩, ?_, fun t => ?_, hleft, hsw⟩
  · rw [hsw.expires]
    exact h.slot t i ((hleft t i).1 ht).1
  · obtain ⟨hm, hne⟩ := (hleft t i).1 ht
    rw [hsw.expires, hsw.jiffies]
    exact (hlater t i hm).2 hne
  · rw [hsw.expires]
    exact h.word t i ((hleft t i).1 ht).1
  · rw [hsw.jiffies]
    exact hnow
  · rw [hfired]
    exact ((List.nodup_cons.1 (h.slots.lists.ring _).nodup).2).filter _
  · rw [hfired, List.mem_filter]
    unfold fires
    dsimp only
    rw [Bool.and_eq_true, Bool.not_eq_true', ← Bool.not_eq_true]
    constructor
    · rintro ⟨hm, hno, hf⟩
      exact ⟨⟨_, hm⟩, by_contra fun hne => hno ((hlater t _ hm).2 hne), hf⟩
    · rintro ⟨⟨i, hi⟩, he, hf⟩
      have hslot := h.slot t i hi
      rw [he] at hslot
      rw [hslot]
      exact ⟨hi, fun hyes => (hlater t i hi).1 hyes he, hf⟩

/-- **A tick ends.** -/
theorem Ahead.tick_ends (h : Ahead s ready q) : ∃ k, ∀ fuel, k ≤ fuel → (Timer.tick s fuel).isSome = true := by
  refine ⟨(q (slotOf (add64 s.jiffies 1))).length + 1, fun fuel hf => ?_⟩
  obtain ⟨u, hu, -⟩ := runTimerSoftirq_spec (s := { s with jiffies := add64 s.jiffies 1 }) (q := q) h.slots hf
  unfold Timer.tick
  rw [hu]
  rfl

/-! ## Between the ticks -/

section Between

variable {e : Nat} {w : State}

/-- **A timer that is alone goes into the slot of its expiry.** -/
theorem Ahead.arm (h : Ahead s ready q) (ht : ready t) (hno : ∀ i, Node.timer t ∉ q i) (hw : e < word64)
    (hfut : notYet e s.jiffies = true) (hl : w.links = s.links.listAddTail (.timer t) (.slot (slotOf e)))
    (he : w.expires = Function.update s.expires (.timer t) e) (hj : w.jiffies = s.jiffies) :
    Ahead w ready (Function.update q (slotOf e) (q (slotOf e) ++ [.timer t])) := by
  have hone : ∀ u i, Node.timer u ∈ Function.update q (slotOf e) (q (slotOf e) ++ [.timer t]) i →
      (u = t ∧ i = slotOf e ∧ w.expires (.timer u) = e) ∨
        (Node.timer u ∈ q i ∧ w.expires (.timer u) = s.expires (.timer u)) := by
    intro u i hu
    rw [he]
    rcases mem_append_iff.1 hu with hu | ⟨hu, hi⟩
    · have hne : Node.timer u ≠ .timer t := fun heq => hno i (heq ▸ hu)
      exact .inr ⟨hu, Function.update_of_ne hne _ _⟩
    · cases hu
      exact .inl ⟨rfl, hi, Function.update_self ..⟩
  refine ⟨?_, fun u i hu => ?_, fun u i hu => ?_, fun u i hu => ?_, ?_⟩
  · rw [hl]
    exact h.slots.add ht hno (slotOf e)
  · rcases hone u i hu with ⟨-, hi, hx⟩ | ⟨hm, hx⟩
    · rw [hx, hi]
    · rw [hx]
      exact h.slot u i hm
  · rw [hj]
    rcases hone u i hu with ⟨-, -, hx⟩ | ⟨hm, hx⟩
    · rw [hx]
      exact hfut
    · rw [hx]
      exact h.future u i hm
  · rcases hone u i hu with ⟨-, -, hx⟩ | ⟨hm, hx⟩
    · rw [hx]
      exact hw
    · rw [hx]
      exact h.word u i hm
  · rw [hj]
    exact h.jiffies

/-- **A timer is taken off.** -/
theorem Ahead.disarm (h : Ahead s ready q) (hm : Node.timer t ∈ q i) (hl : w.links = listDelInit s.links (.timer t))
    (he : w.expires = s.expires) (hj : w.jiffies = s.jiffies) :
    Ahead w ready (Function.update q i ((q i).erase (.timer t))) := by
  refine ⟨hl ▸ h.slots.del hm, fun u j hu => ?_, fun u j hu => ?_, fun u j hu => ?_, hj ▸ h.jiffies⟩
  · exact he ▸ h.slot u j ((h.slots.mem_erase hm).1 hu).2
  · exact he ▸ hj ▸ h.future u j ((h.slots.mem_erase hm).1 hu).2
  · exact he ▸ h.word u j ((h.slots.mem_erase hm).1 hu).2

/-- The expiry of a timer that is alone may be anything. -/
theorem Ahead.write (h : Ahead s ready q) (hno : ∀ i, Node.timer t ∉ q i) (hl : w.links = s.links)
    (he : ∀ x, x ≠ .timer t → w.expires x = s.expires x) (hj : w.jiffies = s.jiffies) : Ahead w ready q := by
  have hx : ∀ u i, Node.timer u ∈ q i → w.expires (.timer u) = s.expires (.timer u) :=
    fun u i hu => he _ fun heq => hno i (heq ▸ hu)
  refine ⟨hl ▸ h.slots, fun u i hu => ?_, fun u i hu => ?_, fun u i hu => ?_, hj ▸ h.jiffies⟩
  · rw [hx u i hu]
    exact h.slot u i hu
  · rw [hx u i hu, hj]
    exact h.future u i hu
  · rw [hx u i hu]
    exact h.word u i hu

/-- The wheel does not depend on timers that were never initialised. -/
theorem Ahead.congr (h : Ahead s ready q)
    (hhead : ∀ i, w.links.next (.slot i) = s.links.next (.slot i) ∧ w.links.prev (.slot i) = s.links.prev (.slot i))
    (htimer : ∀ t, ready t → (w.links.next (.timer t) = s.links.next (.timer t) ∧
      w.links.prev (.timer t) = s.links.prev (.timer t)) ∧ w.expires (.timer t) = s.expires (.timer t))
    (hj : w.jiffies = s.jiffies) : Ahead w ready q := by
  refine ⟨h.slots.congr hhead fun t ht => (htimer t ht).1, fun u i hu => ?_, fun u i hu => ?_, fun u i hu => ?_,
    hj ▸ h.jiffies⟩
  · rw [(htimer u (h.slots.mem u i hu)).2]
    exact h.slot u i hu
  · rw [(htimer u (h.slots.mem u i hu)).2, hj]
    exact h.future u i hu
  · rw [(htimer u (h.slots.mem u i hu)).2]
    exact h.word u i hu

end Between

/-! ## Runs -/

/-- The wheel, and the callbacks that have run with their ticks. -/
structure Clock where
  wheel : State
  log : List (Node × Nat)

/-- What happens: a timer is initialised and its fields written, one of the three calls, or a tick. -/
inductive Ev where
  | init (t expires : Nat) (function : Bool)
  | call (c : Call)
  | tick (fuel : Nat)

def Call.timer : Call → Nat
  | .addTimer t => t
  | .delTimer t => t
  | .modTimer t _ => t

/-- The timer it is about. -/
def Ev.timer : Ev → Option Nat
  | .init t _ _ => some t
  | .call c => some c.timer
  | .tick _ => none

def clockStep (c : Clock) : Ev → Option Clock
  | .init t expires function => some { c with wheel := setup c.wheel t expires function }
  | .call k => some { c with wheel := k.run c.wheel }
  | .tick fuel => (tick c.wheel fuel).map fun r => ⟨r.2, c.log ++ r.1.map fun x => (x, r.2.jiffies)⟩

/-- An empty wheel, and timers that are initialised. -/
def clockMachine : Machine Clock Ev where
  init c := (∀ x, c.wheel.links.next x = x ∧ c.wheel.links.prev x = x) ∧ c.wheel.jiffies < word64 ∧
    (∀ x, c.wheel.expires x < word64) ∧ c.log = []
  step := clockStep

/-- The ticks at which the callback of `t` has run. -/
def Clock.firedAt (c : Clock) (t : Nat) : List Nat := (c.log.filter fun r => r.1 = Node.timer t).map Prod.snd

/-- How many ticks until the expiry of `t`. -/
def Clock.left (c : Clock) (t : Nat) : Nat := sub64 (c.wheel.expires (.timer t)) c.wheel.jiffies

def Ev.isTick : Ev → Bool
  | .tick _ => true
  | _ => false

/-- **What the callers are asked for**: `init_timer` and `add_timer` only of a timer that is not on the wheel already, and
an expiry in the future, less than `2 ^ 63` ticks ahead. -/
def Asked (c : Clock) : Ev → Prop
  | .init t expires _ => timerPending c.wheel t = false ∧ expires < word64
  | .call (.addTimer t) => timerPending c.wheel t = false ∧
      (c.wheel.function (.timer t) = true → notYet (c.wheel.expires (.timer t)) c.wheel.jiffies = true)
  | .call (.modTimer _ expires) => expires < word64 ∧ notYet expires c.wheel.jiffies = true
  | _ => True

structure Sane (c : Clock) (q : Fin 256 → List Node) : Prop where
  ahead : Ahead c.wheel (fun _ => True) q
  word : ∀ x, c.wheel.expires x < word64

/-- What a step about other timers leaves of `t`. -/
structure Same (t : Nat) (s s' : State) : Prop where
  pending : timerPending s' t = timerPending s t
  function : s'.function (.timer t) = s.function (.timer t)
  expires : s'.expires (.timer t) = s.expires (.timer t)
  jiffies : s'.jiffies = s.jiffies

variable {c c' : Clock}

theorem pending_congr (h : Slots s.links ready q) (h' : Slots s'.links ready q') (ht : ready t)
    (hm : ∀ i, Node.timer t ∈ q' i ↔ Node.timer t ∈ q i) : timerPending s' t = timerPending s t := by
  rw [Bool.eq_iff_iff, h.pending ht, h'.pending ht]
  exact exists_congr hm

theorem Slots.not_pending (h : Slots s.links ready q) (ht : ready t) (hp : timerPending s t = false) (i : Fin 256) :
    Node.timer t ∉ q i := by
  intro hi
  rw [(h.pending ht).2 ⟨i, hi⟩] at hp
  cases hp

/-- What a call about `t` leaves. -/
def After (t : Nat) (s s' : State) : Prop := (∃ q, Ahead s' (fun _ => True) q) ∧ ∀ u, u ≠ t → Same u s s'

theorem Ahead.setup (h : Ahead s (fun _ => True) q) (hp : timerPending s t = false) (expires : Nat) (function : Bool) :
    After t s (Timer.setup s t expires function) := by
  have hno := h.slots.not_pending trivial hp
  have hl : (Timer.setup s t expires function).links = s.links := h.slots.init trivial hno
  have hx : ∀ x, x ≠ Node.timer t → (Timer.setup s t expires function).expires x = s.expires x := fun x hx => by
    simp only [Timer.setup, initTimer, Function.update_of_ne hx]
  refine ⟨⟨q, h.write hno hl hx rfl⟩, fun u hu => ?_⟩
  have hne : Node.timer u ≠ .timer t := fun heq => hu (Node.timer.inj heq)
  refine ⟨?_, ?_, hx _ hne, rfl⟩
  · unfold timerPending
    rw [hl]
  · simp only [Timer.setup, initTimer, Function.update_of_ne hne]

theorem Ahead.addTimer (h : Ahead s (fun _ => True) q) (hp : timerPending s t = false)
    (hw : s.expires (.timer t) < word64)
    (hfut : s.function (.timer t) = true → notYet (s.expires (.timer t)) s.jiffies = true) :
    After t s (Timer.addTimer s t) := by
  unfold Timer.addTimer
  cases hf : s.function (.timer t) with
  | false => exact ⟨⟨q, h⟩, fun u _ => ⟨rfl, rfl, rfl, rfl⟩⟩
  | true =>
    have ha := h.arm (w := { s with links := s.links.listAddTail (.timer t) (.slot (slotOf (s.expires (.timer t)))) })
      trivial (h.slots.not_pending trivial hp) hw (hfut hf) rfl (Function.update_eq_self ..).symm rfl
    refine ⟨⟨_, ha.slots, ha.slot, ha.future, ha.word, ha.jiffies⟩, fun u hu => ⟨?_, rfl, rfl, rfl⟩⟩
    refine pending_congr h.slots ha.slots trivial fun i => ?_
    rw [mem_append_iff]
    exact or_iff_left fun hh => hu (Node.timer.inj hh.1)

theorem Ahead.delTimer (h : Ahead s (fun _ => True) q) (t : Nat) : After t s (Timer.delTimer s t).2 := by
  unfold Timer.delTimer
  cases he : s.links.listEmpty (.timer t) with
  | true => exact ⟨⟨q, h⟩, fun u _ => ⟨rfl, rfl, rfl, rfl⟩⟩
  | false =>
    obtain ⟨i, hi⟩ := (h.slots.pending (t := t) trivial).1 (by rw [timerPending, he]; rfl)
    have hd := h.disarm (w := { s with links := listDelInit s.links (.timer t) }) hi rfl rfl rfl
    refine ⟨⟨_, hd.slots, hd.slot, hd.future, hd.word, hd.jiffies⟩, fun u hu => ⟨?_, rfl, rfl, rfl⟩⟩
    refine pending_congr h.slots hd.slots trivial fun j => ?_
    rw [h.slots.mem_erase hi]
    exact and_iff_right fun heq => hu (Node.timer.inj heq)

/-- **`mod_timer` takes the timer off if it is on a list**, and puts it into the slot of its new expiry. -/
theorem Ahead.modTimer {e : Nat} (h : Ahead s (fun _ => True) q) (hw : e < word64) (hfut : notYet e s.jiffies = true) :
    After t s (Timer.modTimer s t e) := by
  obtain ⟨q₁, h₁, hno, hm⟩ : ∃ q₁, Ahead { s with
      links := if s.links.listEmpty (.timer t) then s.links else listDelInit s.links (.timer t) } (fun _ => True) q₁ ∧
      (∀ i, Node.timer t ∉ q₁ i) ∧ ∀ u i, u ≠ t → (Node.timer u ∈ q₁ i ↔ Node.timer u ∈ q i) := by
    cases he : s.links.listEmpty (.timer t) with
    | true => exact ⟨q, h, (h.slots.listEmpty trivial).1 he, fun u i _ => Iff.rfl⟩
    | false =>
      obtain ⟨i, hi⟩ := (h.slots.pending (t := t) trivial).1 (by rw [timerPending, he]; rfl)
      refine ⟨_, h.disarm hi rfl rfl rfl, fun j hj => ((h.slots.mem_erase hi).1 hj).1 rfl, fun u j hu => ?_⟩
      rw [h.slots.mem_erase hi]
      exact and_iff_right fun heq => hu (Node.timer.inj heq)
  have ha := h₁.arm (w := Timer.modTimer s t e) trivial hno hw hfut rfl rfl rfl
  refine ⟨⟨_, ha⟩, fun u hu => ?_⟩
  have hne : Node.timer u ≠ .timer t := fun heq => hu (Node.timer.inj heq)
  refine ⟨pending_congr h.slots ha.slots trivial fun i => ?_, rfl, Function.update_of_ne hne _ _, rfl⟩
  rw [mem_append_iff, hm u i hu]
  exact or_iff_left fun hh => hne hh.1

/-- **A step other than a tick** keeps the wheel sane, and every timer it is not about as it was. -/
theorem Sane.between {a : Ev} (h : Sane c q) (hok : Asked c a) (hs : clockStep c a = some c') (ha : a.isTick = false) :
    (∃ q, Sane c' q) ∧ c'.log = c.log ∧ ∀ t, a.timer ≠ some t → Same t c.wheel c'.wheel := by
  have hafter : ∀ {v : Nat} {w : State}, After v c.wheel w → (∀ x, w.expires x < word64) →
      (∃ q, Sane ⟨w, c.log⟩ q) ∧ c.log = c.log ∧ ∀ t, some v ≠ some t → Same t c.wheel w := by
    rintro v w ⟨⟨q', hq'⟩, hsame⟩ hw
    exact ⟨⟨q', hq', hw⟩, rfl, fun t ht => hsame t fun heq => ht (by rw [heq])⟩
  have hword : ∀ {v e : Nat}, e < word64 → ∀ x, Function.update c.wheel.expires (Node.timer v) e x < word64 := by
    intro v e he x
    rw [Function.update_apply]
    split
    · exact he
    · exact h.word x
  cases a with
  | init t expires function =>
    cases hs
    refine hafter (h.ahead.setup hok.1 expires function) fun x => ?_
    simp only [setup, initTimer, Function.update_idem]
    exact hword hok.2 x
  | call k =>
    cases hs
    cases k with
    | addTimer t =>
      refine hafter (h.ahead.addTimer hok.1 (h.word _) hok.2) fun x => ?_
      simp only [Call.run, Timer.addTimer]
      split
      · exact h.word x
      · exact h.word x
    | delTimer t =>
      refine hafter (h.ahead.delTimer t) fun x => ?_
      simp only [Call.run, Timer.delTimer]
      split
      · exact h.word x
      · exact h.word x
    | modTimer t expires => exact hafter (h.ahead.modTimer hok.1 hok.2) fun x => hword hok.1 x
  | tick fuel => cases ha

theorem Sane.tick (h : Sane c q) (hs : clockStep c (.tick fuel) = some c') :
    ∃ fired q', Sane c' q' ∧ c'.log = c.log ++ fired.map (fun x => (x, add64 c.wheel.jiffies 1)) ∧
      Ticked c.wheel q fired c'.wheel q' := by
  obtain ⟨r, hr, rfl⟩ := Option.map_eq_some_iff.1 hs
  obtain ⟨q', hq', ht⟩ := h.ahead.tick hr
  have hj : r.2.jiffies = add64 c.wheel.jiffies 1 := ht.swept.jiffies
  have hx : r.2.expires = c.wheel.expires := ht.swept.expires
  refine ⟨r.1, q', ⟨hq', fun x => hx ▸ h.word x⟩, ?_, ht⟩
  dsimp only
  rw [hj]

theorem Sane.step {a : Ev} (h : Sane c q) (hok : Asked c a) (hs : clockStep c a = some c') : ∃ q, Sane c' q := by
  cases ha : a.isTick with
  | false => exact (h.between hok hs ha).1
  | true =>
    cases a with
    | tick fuel =>
      obtain ⟨-, q', hq', -⟩ := h.tick hs
      exact ⟨q', hq'⟩
    | init t expires function => cases ha
    | call k => cases ha

theorem Sane.init (h : clockMachine.init c) : Sane c fun _ => [] := by
  obtain ⟨halone, hj, hw, -⟩ := h
  have hno : ∀ (x : Node), x ∉ ([] : List Node) := fun x => List.not_mem_nil
  refine ⟨⟨⟨⟨fun i => Links.ring_nil (halone _).1 (halone _).2, fun i j he => Node.slot.inj he, fun i _ => hno _,
    fun _ _ x hx => absurd hx (hno x)⟩, fun t i hi => absurd hi (hno _), fun t _ _ => halone _⟩,
    fun t i hi => absurd hi (hno _), fun t i hi => absurd hi (hno _), fun t i hi => absurd hi (hno _), hj⟩, hw⟩

/-! ## One timer -/

/-- A list without repetitions has its members once. -/
theorem firedAt_append {log : List (Node × Nat)} {fired : List Node} {w : State} (hnd : fired.Nodup) :
    Clock.firedAt ⟨w, log ++ fired.map fun x => (x, now)⟩ t =
      Clock.firedAt ⟨w, log⟩ t ++ if Node.timer t ∈ fired then [now] else [] := by
  have hmap : ((fired.map fun x => (x, now)).filter fun r => r.1 = Node.timer t) =
      (fired.filter fun x => x = Node.timer t).map fun x => (x, now) := List.filter_map
  unfold Clock.firedAt
  dsimp only
  rw [List.filter_append, List.map_append, hmap, List.filter_eq, hnd.count]
  split
  · rfl
  · rfl

/-- **What a tick is to one timer**: if it is on the wheel, and the tick is its expiry, its callback runs and it is off;
otherwise the expiry is one tick closer. -/
theorem Sane.tick_timer (h : Sane c q) (hs : clockStep c (.tick fuel) = some c') (t : Nat) :
    (timerPending c'.wheel t = (timerPending c.wheel t && decide (c.left t ≠ 1))) ∧
      c'.firedAt t = c.firedAt t ++ (if timerPending c.wheel t = true ∧ c.left t = 1 ∧
        c.wheel.function (.timer t) = true then [c.wheel.expires (.timer t)] else []) ∧
      (timerPending c.wheel t = true → 0 < c.left t ∧ c'.left t = c.left t - 1) ∧
      c'.wheel.function (.timer t) = c.wheel.function (.timer t) ∧
      c'.wheel.expires (.timer t) = c.wheel.expires (.timer t) := by
  obtain ⟨fired, q', hq', hlog, ht⟩ := h.tick hs
  have hex : c'.wheel.expires (.timer t) = c.wheel.expires (.timer t) := congrFun ht.swept.expires _
  have hfn : c'.wheel.function (.timer t) = c.wheel.function (.timer t) := congrFun ht.swept.function _
  have hj : c'.wheel.jiffies = add64 c.wheel.jiffies 1 := ht.swept.jiffies
  have hp := h.ahead.slots.pending (t := t) trivial
  have hleft : timerPending c.wheel t = true → 0 < c.left t ∧ c'.left t = c.left t - 1 ∧
      (c.left t = 1 ↔ c.wheel.expires (.timer t) = add64 c.wheel.jiffies 1) := by
    intro hpend
    obtain ⟨i, hi⟩ := hp.1 hpend
    have hfut := h.ahead.future t i hi
    unfold notYet at hfut
    rw [decide_eq_true_iff] at hfut
    have hstep : c'.left t = c.left t - 1 := by
      unfold Clock.left
      rw [hex, hj]
      exact sub64_tick h.ahead.jiffies hfut.1
    refine ⟨hfut.1, hstep, ?_⟩
    rw [← sub64_eq_zero (h.word _) (add64_lt _ _), sub64_tick h.ahead.jiffies hfut.1]
    unfold Clock.left
    omega
  refine ⟨?_, ?_, fun hpend => ⟨(hleft hpend).1, (hleft hpend).2.1⟩, hfn, hex⟩
  · rw [Bool.eq_iff_iff, hq'.ahead.slots.pending (t := t) trivial, Bool.and_eq_true, decide_eq_true_iff]
    simp only [ht.left, exists_and_right, ← hp]
    exact and_congr_right fun hpend => not_congr (hleft hpend).2.2.symm
  · have hmem : Node.timer t ∈ fired ↔ timerPending c.wheel t = true ∧ c.left t = 1 ∧
        c.wheel.function (.timer t) = true := by
      rw [ht.fired t, ← hp]
      exact and_congr_right fun hpend => and_congr_left' (hleft hpend).2.2.symm
    have hlog' : c'.firedAt t = Clock.firedAt ⟨c.wheel, c.log ++ fired.map fun x => (x, add64 c.wheel.jiffies 1)⟩ t := by
      unfold Clock.firedAt
      rw [hlog]
    rw [hlog', firedAt_append ht.nodup]
    by_cases hm : Node.timer t ∈ fired
    · rw [if_pos hm, if_pos (hmem.1 hm), ← ((ht.fired t).1 hm).2.1]
    · rw [if_neg hm, if_neg fun hh => hm (hmem.2 hh)]

/-- The ticks of a run. -/
def ticks (l : List Ev) : Nat := l.countP Ev.isTick

/-- **A timer that is left alone**: it fires when as many ticks have passed as its expiry was ahead, if it was on the
wheel, and not before, and not again. -/
theorem Sane.run_timer {t : Nat} : ∀ {l : List Ev} {c c' : Clock} {q : Fin 256 → List Node}, Sane c q →
    clockMachine.RunOk Asked c l c' → (∀ a ∈ l, a.timer ≠ some t) →
    timerPending c'.wheel t = (timerPending c.wheel t && decide (ticks l < c.left t)) ∧
      c'.firedAt t = c.firedAt t ++ (if timerPending c.wheel t = true ∧ c.left t ≤ ticks l ∧
        c.wheel.function (.timer t) = true then [c.wheel.expires (.timer t)] else [])
  | [], c, c', q, h, hr, _ => by
    cases hr
    have hpos : timerPending c.wheel t = true → 0 < c.left t := by
      intro hp
      obtain ⟨i, hi⟩ := (h.ahead.slots.pending (t := t) trivial).1 hp
      have hfut := h.ahead.future t i hi
      unfold notYet at hfut
      rw [decide_eq_true_iff] at hfut
      exact hfut.1
    constructor
    · cases hp : timerPending c.wheel t with
      | false => rfl
      | true => simp [ticks, hpos hp]
    · rw [if_neg, List.append_nil]
      rintro ⟨hp, hle, -⟩
      exact absurd (hpos hp) (by simpa [ticks] using hle)
  | a :: l, c, c', q, h, hr, hno => by
    obtain ⟨hok, c₁, hs, hrest⟩ := hr
    have hnol := fun b hb => hno b (List.mem_cons_of_mem a hb)
    cases ha : a.isTick with
    | false =>
      obtain ⟨⟨q₁, h₁⟩, hlog, hsame⟩ := h.between hok hs ha
      obtain ⟨hp, hfn, hex, hj⟩ := hsame t (hno a List.mem_cons_self)
      have hleft : c₁.left t = c.left t := by
        unfold Clock.left
        rw [hex, hj]
      have hfired : c₁.firedAt t = c.firedAt t := by
        unfold Clock.firedAt
        rw [hlog]
      have hticks : ticks (a :: l) = ticks l := List.countP_cons_of_neg (by rw [ha]; exact Bool.false_ne_true)
      have ih := h₁.run_timer hrest hnol
      rw [hp, hfn, hex, hleft, hfired] at ih
      rw [hticks]
      exact ih
    | true =>
      cases a with
      | tick fuel =>
        obtain ⟨-, q₁, h₁, -⟩ := h.tick hs
        obtain ⟨hp, hfired, hleft, hfn, hex⟩ := h.tick_timer hs t
        have hticks : ticks (.tick fuel :: l) = ticks l + 1 := List.countP_cons_of_pos rfl
        obtain ⟨ihp, ihf⟩ := h₁.run_timer hrest hnol
        rw [hp] at ihp ihf
        rw [hfn, hex, hfired] at ihf
        rw [hticks]
        cases hpend : timerPending c.wheel t with
        | false =>
          rw [hpend] at ihp ihf
          refine ⟨ihp, ihf.trans ?_⟩
          simp
        | true =>
          obtain ⟨hpos, hone⟩ := hleft hpend
          rw [hpend, hone] at ihp ihf
          by_cases h1 : c.left t = 1
          · rw [h1] at ihp ihf ⊢
            refine ⟨ihp.trans (by simp), ihf.trans ?_⟩
            simp
          · refine ⟨ihp.trans ?_, ihf.trans ?_⟩
            · have hiff : ticks l < c.left t - 1 ↔ ticks l + 1 < c.left t := by omega
              simp [h1, hiff]
            · have hiff : c.left t - 1 ≤ ticks l ↔ c.left t ≤ ticks l + 1 := by omega
              simp [h1, hiff]
      | init t expires function => cases ha
      | call k => cases ha

/-- **The timer wheel is punctual.**  Whatever has happened before, a tick ends; and a timer that is then left alone fires
exactly once, at the tick that is its expiry, if it is on the wheel and has a callback, and otherwise not at all. -/
theorem punctual_of_run (l l' : List Ev) (c c' c'' : Clock) (t : Nat) (h0 : clockMachine.init c)
    (h : clockMachine.RunOk Asked c l c') (h' : clockMachine.RunOk Asked c' l' c'') (hno : ∀ a ∈ l', a.timer ≠ some t) :
    (∃ k, ∀ fuel, k ≤ fuel → (clockStep c' (.tick fuel)).isSome = true) ∧
      timerPending c''.wheel t = (timerPending c'.wheel t && decide (ticks l' < c'.left t)) ∧
      c''.firedAt t = c'.firedAt t ++ (if timerPending c'.wheel t = true ∧ c'.left t ≤ ticks l' ∧
        c'.wheel.function (.timer t) = true then [c'.wheel.expires (.timer t)] else []) := by
  obtain ⟨q, hq⟩ := clockMachine.runOk_invariant (P := fun c => ∃ q, Sane c q)
    (fun _ _ _ hP hok hs => hP.elim fun _ hP => hP.step hok hs) l c c' ⟨_, Sane.init h0⟩ h
  refine ⟨?_, hq.run_timer h' hno⟩
  obtain ⟨k, hk⟩ := hq.ahead.tick_ends
  refine ⟨k, fun fuel hf => ?_⟩
  obtain ⟨r, hr⟩ := Option.isSome_iff_exists.1 (hk fuel hf)
  simp only [clockStep, hr, Option.map_some, Option.isSome_some]

instance (c : Clock) (a : Ev) : Decidable (Asked c a) :=
  match a with
  | .init _ _ _ => inferInstanceAs (Decidable (_ ∧ _))
  | .call (.addTimer _) => inferInstanceAs (Decidable (_ ∧ (_ → _)))
  | .call (.delTimer _) => inferInstanceAs (Decidable True)
  | .call (.modTimer _ _) => inferInstanceAs (Decidable (_ ∧ _))
  | .tick _ => inferInstanceAs (Decidable True)

def bootClock : Clock := ⟨boot, []⟩

/-- Three timers in one slot, one of them for this round. -/
def threeTimers : List Ev :=
  [.init 0 1 true, .call (.addTimer 0), .init 1 257 true, .call (.addTimer 1), .call (.modTimer 2 513)]

theorem punctual_of_run_three : ∃ c' c'', clockMachine.RunOk Asked bootClock threeTimers c' ∧
    clockMachine.RunOk Asked c' [.tick 4, .tick 4] c'' ∧
    ((∃ k, ∀ fuel, k ≤ fuel → (clockStep c' (.tick fuel)).isSome = true) ∧
      timerPending c''.wheel 0 = (timerPending c'.wheel 0 && decide (ticks [.tick 4, .tick 4] < c'.left 0)) ∧
      c''.firedAt 0 = c'.firedAt 0 ++ (if timerPending c'.wheel 0 = true ∧ c'.left 0 ≤ ticks [.tick 4, .tick 4] ∧
        c'.wheel.function (.timer 0) = true then [c'.wheel.expires (.timer 0)] else [])) := by
  have hrun : ((clockMachine.check Asked bootClock threeTimers).bind fun c =>
      clockMachine.check Asked c [.tick 4, .tick 4]).isSome = true := by decide +kernel
  obtain ⟨c'', h⟩ := Option.isSome_iff_exists.1 hrun
  obtain ⟨c', h₁, h₂⟩ := Option.bind_eq_some_iff.1 h
  have hok := clockMachine.runOk_of_check h₁
  have hok' := clockMachine.runOk_of_check h₂
  have h0 : clockMachine.init bootClock := ⟨fun _ => ⟨rfl, rfl⟩, by decide, fun _ => (by decide : 1 < word64), rfl⟩
  have hno : ∀ a ∈ [Ev.tick 4, Ev.tick 4], a.timer ≠ some 0 := by
    intro a ha
    simp only [List.mem_cons, List.not_mem_nil, or_false, or_self] at ha
    subst ha
    exact fun he => by cases he
  exact ⟨c', c'', hok, hok', punctual_of_run _ _ _ c' c'' 0 h0 hok hok' hno⟩

end Timer
end Pico
