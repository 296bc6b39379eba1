import Mathlib.Algebra.BigOperators.Group.Finset.Piecewise
import Mathlib.Algebra.BigOperators.Group.List.Basic
import Mathlib.Data.Fintype.Prod
import Picomimi.Sched
/-!
# SchedLists — the run queues as lists of tasks

`Lists s q` says that the rings of nodes behind the queue heads are the lists `q`, that no task is in two places, and that
`on_rq` is set for the tasks that are in one.  `Acct` ties one run queue's bitmaps and counters to its lists.  Queueing a
task appends it to one list, taking it off erases it from one.
-/
namespace Pico
namespace Sched

open Lib

/-- A priority queue of a CPU's run queue. -/
structure QIdx where
  cpu : Nat
  arr : Bool
  prio : Fin 140
deriving DecidableEq

def QIdx.head (i : QIdx) : Node := .queue i.cpu i.arr (i.prio : Nat)

/-- **The lists behind the queue heads**, and the tasks in them. -/
structure Lists (s : State) (q : QIdx → List Nat) : Prop where
  rings : s.links.Family QIdx.head fun i => (q i).map Node.task
  onRq : ∀ t, (s.tasks t).onRq = true ↔ ∃ i, t ∈ q i

theorem task_injective : Function.Injective Node.task := fun _ _ h => by cases h; rfl

theorem QIdx.head_injective : Function.Injective QIdx.head := by
  rintro ⟨c, a, p⟩ ⟨c', a', p'⟩ h
  simp only [QIdx.head, Node.queue.injEq] at h
  obtain ⟨rfl, rfl, hp⟩ := h
  have hp' : p = p' := Fin.ext (by exact_mod_cast hp)
  rw [hp']

theorem mem_map_task {xs : List Nat} {t : Nat} : Node.task t ∈ xs.map Node.task ↔ t ∈ xs := by
  rw [List.mem_map]
  refine ⟨?_, fun h => ⟨t, h, rfl⟩⟩
  rintro ⟨u, hu, h⟩
  rw [← task_injective h]
  exact hu

variable {s s' : State} {q : QIdx → List Nat} {t : Nat} {i : QIdx}

theorem Lists.unique (hl : Lists s q) {j : QIdx} (hi : t ∈ q i) (hj : t ∈ q j) : i = j :=
  hl.rings.apart i j (.task t) (mem_map_task.2 hi) (mem_map_task.2 hj)

theorem Lists.nodup (hl : Lists s q) (i : QIdx) : (q i).Nodup := hl.rings.nodup_map i

/-- **A task in no list is appended to one.** -/
theorem Lists.append (hl : Lists s q) (hoff : (s.tasks t).onRq = false) (i : QIdx)
    (hlinks : s'.links = s.links.listAddTail (.task t) i.head) (hon : (s'.tasks t).onRq = true)
    (hother : ∀ u, u ≠ t → (s'.tasks u).onRq = (s.tasks u).onRq) :
    Lists s' (Function.update q i (q i ++ [t])) := by
  have hno : ∀ j, t ∉ q j := by
    intro j hj
    rw [(hl.onRq t).2 ⟨j, hj⟩] at hoff
    cases hoff
  constructor
  · rw [hlinks]
    exact hl.rings.listAddTail_map task_injective (fun j h => by cases h) hno
  · intro u
    by_cases hu : u = t
    · subst hu
      refine ⟨fun _ => ⟨i, ?_⟩, fun _ => hon⟩
      rw [Function.update_self]
      simp
    · rw [hother u hu, hl.onRq u]
      exact exists_congr fun j => (mem_append_of_ne hu).symm

/-- **A task is taken off its list**, wherever the caller thinks it is. -/
theorem Lists.erase (hl : Lists s q) (ht : t ∈ q i) (hlinks : s'.links = s.links.listDel .null (.task t))
    (hoff : (s'.tasks t).onRq = false) (hother : ∀ u, u ≠ t → (s'.tasks u).onRq = (s.tasks u).onRq) :
    Lists s' (Function.update q i ((q i).erase t)) := by
  constructor
  · rw [hlinks]
    exact hl.rings.listDel_map .null task_injective ht
  · intro u
    by_cases hu : u = t
    · subst hu
      rw [hoff]
      refine ⟨fun h => absurd h Bool.false_ne_true, ?_⟩
      rintro ⟨j, hj⟩
      by_cases hji : j = i
      · subst hji
        rw [Function.update_self] at hj
        exact absurd hj ((hl.nodup j).not_mem_erase)
      · rw [Function.update_of_ne hji] at hj
        exact absurd (hl.unique hj ht) hji
    · rw [hother u hu, hl.onRq u]
      exact exists_congr fun j => (mem_erase_of_ne hu).symm

/-- A step that queues nothing and takes nothing off. -/
theorem Lists.congr (hl : Lists s q) (hlinks : s'.links = s.links)
    (hother : ∀ u, (s'.tasks u).onRq = (s.tasks u).onRq) : Lists s' q := by
  constructor
  · rw [hlinks]
    exact hl.rings
  · intro u
    rw [hother u]
    exact hl.onRq u

/-- What `enqueue_task` does to the tasks: one `on_rq`. -/
theorem enqueueTask_tasks (s : State) (c t u : Nat) :
    (enqueueTask s c t).tasks u = { s.tasks u with onRq := if u = t then true else (s.tasks u).onRq } := by
  simp only [enqueueTask, Function.update_apply]
  split
  · rename_i h
    rw [h]
  · rfl

theorem dequeueTask_tasks (s : State) (c t u : Nat) :
    (dequeueTask s c t).tasks u = { s.tasks u with onRq := if u = t then false else (s.tasks u).onRq } := by
  simp only [dequeueTask, Function.update_apply]
  split
  · rename_i h
    rw [h]
  · rfl

theorem expireTask_tasks (s : State) (c t u : Nat) :
    (expireTask s c t).tasks u = { s.tasks u with
      onRq := if u = t then true else (s.tasks u).onRq
      timeSlice := if u = t then calculateTimeslice (s.tasks t) else (s.tasks u).timeSlice } := by
  simp only [expireTask, Function.update_apply]
  split
  · rename_i h
    rw [h]
  · rfl

theorem Lists.enqueueTask (hl : Lists s q) (hoff : (s.tasks t).onRq = false) (c : Nat) {p : Fin 140}
    (hp : (s.tasks t).prio = (p : Nat)) :
    Lists (Sched.enqueueTask s c t)
      (Function.update q ⟨c, (s.rqs c).active, p⟩ (q ⟨c, (s.rqs c).active, p⟩ ++ [t])) := by
  refine hl.append hoff ⟨c, (s.rqs c).active, p⟩ ?_ ?_ ?_
  · simp only [Sched.enqueueTask, hp]
    rfl
  · simp only [enqueueTask_tasks, if_true]
  · intro u hu
    simp only [enqueueTask_tasks, if_neg hu]

theorem Lists.dequeueTask (hl : Lists s q) (ht : t ∈ q i) (c : Nat) :
    Lists (Sched.dequeueTask s c t) (Function.update q i ((q i).erase t)) := by
  refine hl.erase ht rfl ?_ ?_
  · simp only [dequeueTask_tasks, if_true]
  · intro u hu
    simp only [dequeueTask_tasks, if_neg hu]

theorem Lists.expireTask (hl : Lists s q) (hoff : (s.tasks t).onRq = false) (c : Nat) {p : Fin 140}
    (hp : (s.tasks t).prio = (p : Nat)) :
    Lists (Sched.expireTask s c t)
      (Function.update q ⟨c, (s.rqs c).expired, p⟩ (q ⟨c, (s.rqs c).expired, p⟩ ++ [t])) := by
  refine hl.append hoff ⟨c, (s.rqs c).expired, p⟩ ?_ ?_ ?_
  · simp only [Sched.expireTask, hp]
    rfl
  · simp only [expireTask_tasks, if_true]
  · intro u hu
    simp only [expireTask_tasks, if_neg hu]

theorem Lists.setTask (hl : Lists s q) {task : Task} (h : task.onRq = (s.tasks t).onRq) : Lists (s.setTask t task) q := by
  refine hl.congr rfl fun u => ?_
  simp only [State.setTask, Function.update_apply]
  split
  · rename_i hu
    rw [h, hu]
  · rfl

theorem Lists.setRq (hl : Lists s q) (c : Nat) (rq : Runqueue) : Lists (s.setRq c rq) q := hl.congr rfl fun _ => rfl

theorem Lists.swapIfEmpty (hl : Lists s q) (c : Nat) : Lists (Sched.swapIfEmpty s c) q := by
  unfold Sched.swapIfEmpty
  split
  · exact hl.setRq c _
  · exact hl

/-- A task whose node is met behind the head of a list is in the list. -/
theorem Lists.mem_of_iterate (hl : Lists s q) {n : Nat} (h : s.links.next^[n] i.head = .task t) : t ∈ q i := by
  have hm := (hl.rings.ring i).iterate_mem n
  rw [h] at hm
  rcases List.mem_cons.1 hm with hm | hm
  · cases hm
  · exact mem_map_task.1 hm

/-! ## Bits -/

theorem tdiv_natCast (p : Nat) : (p : Int).tdiv 64 = ((p / 64 : Nat) : Int) := (Int.ofNat_tdiv p 64).symm

theorem tmod_natCast (p : Nat) : ((p : Int).tmod 64).toNat = p % 64 := by
  rw [show (64 : Int) = ((64 : Nat) : Int) from rfl, ← Int.ofNat_tmod]
  rfl

/-- The mask of one bit. -/
theorem getLsbD_mask {k j : Nat} (hj : j < 64) : (1#64 <<< k).getLsbD j = decide (k = j) := by
  rw [BitVec.getLsbD_shiftLeft, BitVec.getLsbD_one]
  by_cases h : j < k
  · have : k ≠ j := by omega
    simp [h, this]
  · simp [h, hj]
    omega

theorem testPrioBit_set (bitmap : Bitmap) (p r : Nat) :
    testPrioBit (setPrioBit bitmap p) r = (decide (p = r) || testPrioBit bitmap r) := by
  unfold testPrioBit setPrioBit
  rw [tdiv_natCast, tdiv_natCast, tmod_natCast, tmod_natCast, Function.update_apply]
  have hr : r % 64 < 64 := Nat.mod_lt _ (by decide)
  by_cases hw : ((r / 64 : Nat) : Int) = ((p / 64 : Nat) : Int)
  · have hw' : r / 64 = p / 64 := by exact_mod_cast hw
    have hbit : decide (p % 64 = r % 64) = decide (p = r) := decide_eq_decide.2 (by omega)
    rw [if_pos hw, BitVec.getLsbD_or, getLsbD_mask hr, hw, hbit, Bool.or_comm]
  · have hne : p ≠ r := fun h => hw (by rw [h])
    rw [if_neg hw, decide_eq_false hne, Bool.false_or]

theorem testPrioBit_clear (bitmap : Bitmap) (p r : Nat) :
    testPrioBit (clearPrioBit bitmap p) r = (!decide (p = r) && testPrioBit bitmap r) := by
  unfold testPrioBit clearPrioBit
  rw [tdiv_natCast, tdiv_natCast, tmod_natCast, tmod_natCast, Function.update_apply]
  have hr : r % 64 < 64 := Nat.mod_lt _ (by decide)
  by_cases hw : ((r / 64 : Nat) : Int) = ((p / 64 : Nat) : Int)
  · have hw' : r / 64 = p / 64 := by exact_mod_cast hw
    have hbit : decide (p % 64 = r % 64) = decide (p = r) := decide_eq_decide.2 (by omega)
    rw [if_pos hw, BitVec.getLsbD_and, BitVec.getLsbD_not, getLsbD_mask hr, hw, hbit, decide_eq_true hr,
      Bool.true_and, Bool.and_comm]
  · have hne : p ≠ r := fun h => hw (by rw [h])
    rw [if_neg hw, decide_eq_false hne, Bool.not_false, Bool.true_and]

/-! ## One run queue's books -/

/-- What a queued task adds to the load. -/
def weight (task : Task) : Nat := (maxPrio - task.prio).toNat

/-- The lists of one CPU. -/
def cpuQueues (q : QIdx → List Nat) (c : Nat) : Bool × Fin 140 → List Nat := fun i => q ⟨c, i.1, i.2⟩

/-- The bitmap has exactly the bits of the non-empty lists of an array. -/
def BitsOf (bitmap : Bitmap) (qs : Bool × Fin 140 → List Nat) (a : Bool) : Prop :=
  ∀ p, p < 512 → (testPrioBit bitmap (p : Nat) = true ↔ ∃ h : p < 140, qs (a, ⟨p, h⟩) ≠ [])

/-- **The books of a run queue are right**: the bitmaps, the count of every queue, the number of tasks and their load. -/
structure Acct (rq : Runqueue) (tasks : Nat → Task) (qs : Bool × Fin 140 → List Nat) : Prop where
  arrays : rq.expired = !rq.active
  prio : ∀ i, ∀ t ∈ qs i, (tasks t).prio = (i.2 : Nat)
  count : ∀ i, rq.count i.1 (i.2 : Nat) = (qs i).length
  activeBits : BitsOf rq.activeBitmap qs rq.active
  expiredBits : BitsOf rq.expiredBitmap qs rq.expired
  nrRunning : rq.nrRunning = (∑ i, (qs i).length) % word64
  load : rq.load = (∑ i, ((qs i).map fun t => weight (tasks t)).sum) % word64

theorem sum_update {ι M : Type} [Fintype ι] [DecidableEq ι] [AddCommMonoid M] (f : ι → M) (i : ι) (b : M) :
    ∑ x, Function.update f i b x + f i = ∑ x, f x + b := by
  rw [Finset.sum_update_of_mem (Finset.mem_univ i), ← Finset.add_sum_erase Finset.univ f (Finset.mem_univ i),
    Finset.sdiff_singleton_eq_erase, add_comm b, add_right_comm, add_comm _ (f i)]

/-- A measure of the lists, summed, after one list changed. -/
theorem sum_measure {M : Type} [AddCommMonoid M] (m : List Nat → M) (qs : Bool × Fin 140 → List Nat) (i : Bool × Fin 140)
    (xs : List Nat) : ∑ j, m (Function.update qs i xs j) + m (qs i) = ∑ j, m (qs j) + m xs := by
  have h : (fun j => m (Function.update qs i xs j)) = Function.update (fun j => m (qs j)) i (m xs) := by
    funext j
    by_cases hj : j = i
    · subst hj
      simp only [Function.update_self]
    · simp only [Function.update_of_ne hj]
  rw [h]
  exact sum_update (fun j => m (qs j)) i (m xs)

theorem cpuQueues_update_self (q : QIdx → List Nat) (c : Nat) (a : Bool) (p : Fin 140) (xs : List Nat) :
    cpuQueues (Function.update q ⟨c, a, p⟩ xs) c = Function.update (cpuQueues q c) (a, p) xs := by
  funext j
  obtain ⟨b, r⟩ := j
  unfold cpuQueues
  by_cases hj : (b, r) = (a, p)
  · obtain ⟨rfl, rfl⟩ := Prod.mk.inj hj
    rw [Function.update_self, Function.update_self]
  · have hne : (⟨c, b, r⟩ : QIdx) ≠ ⟨c, a, p⟩ := by
      intro h
      simp only [QIdx.mk.injEq, true_and] at h
      exact hj (Prod.ext h.1 h.2)
    rw [Function.update_of_ne hj, Function.update_of_ne hne]

theorem cpuQueues_update_of_ne {q : QIdx → List Nat} {c : Nat} {i : QIdx} (h : c ≠ i.cpu) (xs : List Nat) :
    cpuQueues (Function.update q i xs) c = cpuQueues q c := by
  funext j
  unfold cpuQueues
  rw [Function.update_of_ne]
  intro heq
  exact h (by rw [← heq])

theorem addCount_apply (count : Bool → Int → Int) (a b : Bool) (p r d : Int) :
    addCount count a p d b r = if b = a ∧ r = p then count b r + d else count b r := by
  unfold addCount
  by_cases hb : b = a
  · subst hb
    rw [Function.update_self]
    by_cases hr : r = p
    · subst hr
      rw [Function.update_self, if_pos ⟨rfl, rfl⟩]
    · rw [Function.update_of_ne hr, if_neg (fun h => hr h.2)]
  · rw [Function.update_of_ne hb, if_neg (fun h => hb h.1)]

section Books

variable {rq : Runqueue} {tasks tasks' : Nat → Task} {qs : Bool × Fin 140 → List Nat} {a : Bool} {p : Fin 140}

theorem weight_congr (h : ∀ u, (tasks' u).prio = (tasks u).prio) :
    (fun u => weight (tasks' u)) = fun u => weight (tasks u) := by
  funext u
  unfold weight
  rw [h u]

theorem prio_update (h : ∀ i, ∀ t ∈ qs i, (tasks t).prio = (i.2 : Nat)) {xs : List Nat}
    (hxs : ∀ u ∈ xs, (tasks u).prio = (p : Nat)) :
    ∀ i, ∀ u ∈ Function.update qs (a, p) xs i, (tasks u).prio = (i.2 : Nat) := by
  intro i u hu
  by_cases hi : i = (a, p)
  · subst hi
    rw [Function.update_self] at hu
    exact hxs u hu
  · rw [Function.update_of_ne hi] at hu
    exact h i u hu

theorem count_update (h : ∀ i, rq.count i.1 (i.2 : Nat) = (qs i).length) {xs : List Nat} {d : Int}
    (hd : ((qs (a, p)).length : Int) + d = xs.length) :
    ∀ i, addCount rq.count a (p : Nat) d i.1 (i.2 : Nat) = (Function.update qs (a, p) xs i).length := by
  intro i
  rw [addCount_apply]
  by_cases hi : i = (a, p)
  · subst hi
    rw [if_pos ⟨rfl, rfl⟩, Function.update_self, h, hd]
  · rw [Function.update_of_ne hi, if_neg, h]
    rintro ⟨h1, h2⟩
    exact hi (Prod.ext h1 (Fin.ext (by exact_mod_cast h2)))

/-- The other array's bits do not move. -/
theorem BitsOf.other {bitmap : Bitmap} {b : Bool} (h : BitsOf bitmap qs b) (hb : b ≠ a) (xs : List Nat) :
    BitsOf bitmap (Function.update qs (a, p) xs) b := by
  intro r hr
  rw [h r hr]
  refine exists_congr fun hlt => ?_
  rw [Function.update_of_ne (fun heq => hb (Prod.mk.inj heq).1)]

theorem BitsOf.set {bitmap : Bitmap} (h : BitsOf bitmap qs a) {xs : List Nat} (hxs : xs ≠ []) :
    BitsOf (setPrioBit bitmap (p : Nat)) (Function.update qs (a, p) xs) a := by
  intro r hr
  rw [testPrioBit_set, Bool.or_eq_true, decide_eq_true_iff, h r hr]
  by_cases hpr : (p : Nat) = r
  · subst hpr
    refine ⟨fun _ => ⟨p.isLt, ?_⟩, fun _ => .inl rfl⟩
    rw [Fin.eta, Function.update_self]
    exact hxs
  · rw [or_iff_right hpr]
    refine exists_congr fun hlt => ?_
    rw [Function.update_of_ne]
    intro heq
    exact hpr (congrArg Fin.val (Prod.mk.inj heq).2).symm

/-- Shortening a list, and clearing its bit when nothing is left. -/
theorem BitsOf.clear {bitmap : Bitmap} (h : BitsOf bitmap qs a) {xs : List Nat}
    (hne : qs (a, p) ≠ []) {b : Bool} (hb : b = true ↔ xs = []) :
    BitsOf (if b then clearPrioBit bitmap (p : Nat) else bitmap) (Function.update qs (a, p) xs) a := by
  intro r hr
  have hother : ∀ hlt : r < 140, (p : Nat) ≠ r → Function.update qs (a, p) xs (a, ⟨r, hlt⟩) = qs (a, ⟨r, hlt⟩) := by
    intro hlt hpr
    rw [Function.update_of_ne]
    intro heq
    exact hpr (congrArg Fin.val (Prod.mk.inj heq).2).symm
  by_cases hpr : (p : Nat) = r
  · subst hpr
    have hself : Function.update qs (a, p) xs (a, ⟨p, p.isLt⟩) = xs := by rw [Fin.eta, Function.update_self]
    cases hbc : b with
    | true =>
      rw [if_pos rfl, testPrioBit_clear, decide_eq_true rfl, Bool.not_true, Bool.false_and]
      constructor
      · intro hf
        cases hf
      · rintro ⟨hlt, hx⟩
        rw [hself] at hx
        exact absurd (hb.1 hbc) hx
    | false =>
      have hx : xs ≠ [] := fun hx => by rw [hb.2 hx] at hbc; cases hbc
      rw [if_neg Bool.false_ne_true, h p hr]
      exact ⟨fun _ => ⟨p.isLt, by rw [hself]; exact hx⟩, fun _ => ⟨p.isLt, hne⟩⟩
  · have hbit : testPrioBit (if b then clearPrioBit bitmap (p : Nat) else bitmap) (r : Nat) = testPrioBit bitmap r := by
      cases b with
      | true => rw [if_pos rfl, testPrioBit_clear, decide_eq_false hpr, Bool.not_false, Bool.true_and]
      | false => rw [if_neg Bool.false_ne_true]
    rw [hbit, h r hr]
    exact exists_congr fun hlt => by rw [hother hlt hpr]

theorem toU64_weight {x : Int} (h : x = (p : Nat)) : toU64 (maxPrio - x) = (maxPrio - x).toNat := by
  have hp := p.isLt
  have hw : (word64 : Int) = 18446744073709551616 := rfl
  unfold toU64 maxPrio
  rw [h, hw, Int.emod_eq_of_lt (by omega) (by omega)]

/-- **Queueing a task on an array keeps the books**, with its load added. -/
theorem Acct.append (ha : Acct rq tasks qs) {t : Nat} (hp : (tasks t).prio = (p : Nat))
    (hprio : ∀ u, (tasks' u).prio = (tasks u).prio) :
    Acct
      { rq with
        count := addCount rq.count rq.active (tasks t).prio 1
        activeBitmap := setPrioBit rq.activeBitmap (tasks t).prio
        nrRunning := add64 rq.nrRunning 1
        load := add64 rq.load (toU64 (maxPrio - (tasks t).prio)) }
      tasks' (Function.update qs (rq.active, p) (qs (rq.active, p) ++ [t])) := by
  have hswap : rq.expired ≠ rq.active := by
    rw [ha.arrays]
    exact Bool.not_ne_self _
  constructor
  · exact ha.arrays
  · intro i u hu
    rw [hprio u]
    refine prio_update ha.prio (fun u hu => ?_) i u hu
    rcases List.mem_append.1 hu with hu | hu
    · exact ha.prio (rq.active, p) u hu
    · rw [List.mem_singleton.1 hu]
      exact hp
  · rw [hp]
    exact count_update ha.count (by simp)
  · rw [hp]
    exact ha.activeBits.set (by simp)
  · exact ha.expiredBits.other hswap _
  · show add64 rq.nrRunning 1 = _
    have hsum := sum_measure List.length qs (rq.active, p) (qs (rq.active, p) ++ [t])
    rw [List.length_append, List.length_singleton] at hsum
    rw [ha.nrRunning, add64_mod]
    exact congrArg (· % word64) (by omega)
  · show add64 rq.load _ = _
    have hsum := sum_measure (fun xs => (xs.map fun u => weight (tasks u)).sum) qs (rq.active, p)
      (qs (rq.active, p) ++ [t])
    simp only [List.map_append, List.map_cons, List.map_nil, List.sum_append, List.sum_cons, List.sum_nil] at hsum
    have hw : (maxPrio - (tasks t).prio).toNat = weight (tasks t) := rfl
    rw [weight_congr hprio, ha.load, add64_mod, toU64_weight hp, hw]
    exact congrArg (· % word64) (by omega)

/-- **Taking a task off the active array keeps the books.** -/
theorem Acct.erase (ha : Acct rq tasks qs) {t : Nat} (ht : t ∈ qs (rq.active, p))
    (hprio : ∀ u, (tasks' u).prio = (tasks u).prio) :
    Acct
      { rq with
        count := addCount rq.count rq.active (tasks t).prio (-1)
        activeBitmap := if addCount rq.count rq.active (tasks t).prio (-1) rq.active (tasks t).prio = 0 then
          clearPrioBit rq.activeBitmap (tasks t).prio else rq.activeBitmap
        nrRunning := sub64 rq.nrRunning 1
        load := sub64 rq.load (toU64 (maxPrio - (tasks t).prio)) }
      tasks' (Function.update qs (rq.active, p) ((qs (rq.active, p)).erase t)) := by
  have hp : (tasks t).prio = (p : Nat) := ha.prio _ t ht
  have hswap : rq.expired ≠ rq.active := by
    rw [ha.arrays]
    exact Bool.not_ne_self _
  have hlen : ((qs (rq.active, p)).erase t).length + 1 = (qs (rq.active, p)).length := by
    rw [List.length_erase_of_mem ht]
    have := List.length_pos_of_mem ht
    omega
  have hcount : ∀ i, addCount rq.count rq.active (p : Nat) (-1) i.1 (i.2 : Nat) =
      (Function.update qs (rq.active, p) ((qs (rq.active, p)).erase t) i).length :=
    count_update ha.count (by omega)
  constructor
  · exact ha.arrays
  · intro i u hu
    rw [hprio u]
    exact prio_update ha.prio (fun u hu => ha.prio (rq.active, p) u (List.mem_of_mem_erase hu)) i u hu
  · rw [hp]
    exact hcount
  · rw [hp]
    have hself := hcount (rq.active, p)
    rw [Function.update_self] at hself
    have hzero : decide (addCount rq.count rq.active (p : Nat) (-1) rq.active (p : Nat) = 0) = true ↔
        (qs (rq.active, p)).erase t = [] := by
      rw [decide_eq_true_iff, hself, ← List.length_eq_zero_iff]
      omega
    have h := ha.activeBits.clear (List.ne_nil_of_mem ht) hzero
    simpa only [decide_eq_true_eq] using h
  · exact ha.expiredBits.other hswap _
  · show sub64 rq.nrRunning 1 = _
    have hsum := sum_measure List.length qs (rq.active, p) ((qs (rq.active, p)).erase t)
    rw [ha.nrRunning, sub64_mod (by omega) (by decide)]
    exact congrArg (· % word64) (by omega)
  · show sub64 rq.load _ = _
    have hsum := sum_measure (fun xs => (xs.map fun u => weight (tasks u)).sum) qs (rq.active, p)
      ((qs (rq.active, p)).erase t)
    have herase := List.sum_map_erase (fun u => weight (tasks u)) ht
    have hw : (maxPrio - (tasks t).prio).toNat = weight (tasks t) := rfl
    have hlt : weight (tasks t) < word64 := by
      unfold weight maxPrio word64
      omega
    rw [weight_congr hprio, ha.load, toU64_weight hp, hw, sub64_mod (by omega) hlt]
    exact congrArg (· % word64) (by omega)

/-- **Swapping the arrays keeps the books.** -/
theorem Acct.swap (ha : Acct rq tasks qs) :
    Acct
      { rq with
        active := rq.expired
        expired := rq.active
        activeBitmap := rq.expiredBitmap
        expiredBitmap := rq.activeBitmap }
      tasks qs := by
  constructor
  · show rq.active = !rq.expired
    rw [ha.arrays, Bool.not_not]
  · exact ha.prio
  · exact ha.count
  · exact ha.expiredBits
  · exact ha.activeBits
  · exact ha.nrRunning
  · exact ha.load

/-- The books speak of the queued tasks' priorities only. -/
theorem Acct.congr (ha : Acct rq tasks qs) (hprio : ∀ i, ∀ u ∈ qs i, (tasks' u).prio = (tasks u).prio) :
    Acct rq tasks' qs := by
  refine ⟨ha.arrays, ?_, ha.count, ha.activeBits, ha.expiredBits, ha.nrRunning, ?_⟩
  · intro i u hu
    rw [hprio i u hu]
    exact ha.prio i u hu
  · rw [ha.load]
    have hw : ∀ i, ∀ u ∈ qs i, weight (tasks u) = weight (tasks' u) := by
      intro i u hu
      unfold weight
      rw [hprio i u hu]
    exact congrArg (· % word64) (Finset.sum_congr rfl fun i _ => congrArg List.sum (List.map_congr_left (hw i)))

end Books

end Sched
end Pico
