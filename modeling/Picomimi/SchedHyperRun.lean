import Picomimi.SchedHyper
/-!
# SchedHyperRun — when the queues of the domains stay in order

`Queued s q` says that the rings behind the domains' heads are the lists `q`, each in its class's order, with `nr_running`
and `on_rq` to match.  `enqueue` inserts and `dequeue` erases, and picking again loses nothing; what can go wrong is done to
an entity that is linked: a second `attach`, a `detach` from a domain other than the one it is queued in, a tick that makes
the running entity's `vruntime` pass its successor's, and `coop_yield` in a queue that is not first come first served.
-/
namespace Pico
namespace SchedHyper

open Lib

/-- What a class keeps its queue in the order of; a cooperative and an idle domain have no order. -/
def Class.key : Class → Entity → Nat
  | .realtime, se => se.deadline
  | .fair, se | .batch, se => se.vruntime
  | .cooperative, _ | .idle, _ => 0

def State.key (s : State) (d e : Nat) : Nat := (s.dom d).sclass.key (s.ents e)

/-- **The queues are the lists `q`, in order**, and the counters and flags say so. -/
structure Queued (s : State) (q : Nat → List Nat) : Prop where
  rings : s.links.Family head fun d => (q d).map Node.entity
  sorted : ∀ d, (q d).Pairwise fun x y => s.key d x ≤ s.key d y
  nrRunning : ∀ d, (s.dom d).nrRunning = (q d).length
  onRq : ∀ e, (s.ents e).onRq = true ↔ ∃ d, e ∈ q d

/-- **Every queue is in order and `pick_next` returns a queued entity of the smallest key**: the earliest deadline in a
real-time domain, the smallest `vruntime` in a fair or batch domain. -/
def InOrder (s : State) : Prop :=
  ∃ q, Queued s q ∧ ∀ d e, pickNext s d = some e → e ∈ q d ∧ ∀ x ∈ q d, s.key d e ≤ s.key d x

variable {s s' : State} {q : Nat → List Nat} {d e x cpu turns : Nat} {c : Class}

theorem entity_injective : Function.Injective Node.entity := fun _ _ h => by
  cases h
  rfl

theorem mem_map_entity {xs : List Nat} : Node.entity e ∈ xs.map Node.entity ↔ e ∈ xs :=
  List.mem_map_of_injective entity_injective

theorem Queued.unique (h : Queued s q) {i j : Nat} (hi : e ∈ q i) (hj : e ∈ q j) : i = j :=
  h.rings.apart i j (.entity e) (mem_map_entity.2 hi) (mem_map_entity.2 hj)

theorem Queued.firstEntity (h : Queued s q) (d : Nat) : firstEntity s d = (q d).head? := by
  have hr := h.rings.ring d
  unfold SchedHyper.firstEntity
  cases hq : q d with
  | nil =>
    rw [hq] at hr
    have hn : s.links.next (head d) = head d := hr.seg.1
    rw [hn]
    rfl
  | cons a l =>
    rw [hq, List.map_cons] at hr
    rw [hr.next_cons]
    rfl

theorem Queued.inOrder (h : Queued s q) : InOrder s := by
  refine ⟨q, h, fun d e hp => ?_⟩
  have hs := h.sorted d
  rw [pickNext, h.firstEntity] at hp
  cases hq : q d with
  | nil =>
    rw [hq] at hp
    cases hp
  | cons a l =>
    rw [hq] at hp hs
    cases hp
    refine ⟨List.mem_cons_self, fun x hx => ?_⟩
    rcases List.mem_cons.1 hx with rfl | hx
    · exact Nat.le_refl _
    · exact List.rel_of_pairwise_cons hs hx

/-- What reads the queues reads only this. -/
theorem Queued.congr (h : Queued s q) (hlinks : s'.links = s.links)
    (hent : ∀ e, (s'.ents e).onRq = (s.ents e).onRq ∧ (s'.ents e).deadline = (s.ents e).deadline ∧
      (s'.ents e).vruntime = (s.ents e).vruntime)
    (hdom : ∀ d, (s'.dom d).sclass = (s.dom d).sclass ∧ (s'.dom d).nrRunning = (s.dom d).nrRunning) : Queued s' q := by
  have hkey : ∀ d e, s'.key d e = s.key d e := by
    intro d e
    unfold State.key
    rw [(hdom d).1]
    cases (s.dom d).sclass <;> simp [Class.key, hent e]
  refine ⟨hlinks ▸ h.rings, fun d => ?_, fun d => (hdom d).2.trans (h.nrRunning d), fun e => ?_⟩
  · simp only [hkey]
    exact h.sorted d
  · rw [(hent e).1]
    exact h.onRq e

theorem Queued.setDom (h : Queued s q) {D : Domain} (hc : D.sclass = (s.dom d).sclass)
    (hn : D.nrRunning = (s.dom d).nrRunning) : Queued (s.setDom d D) q := by
  refine h.congr rfl (fun _ => ⟨rfl, rfl, rfl⟩) fun i => ?_
  by_cases hi : i = d
  · subst hi
    simp [State.setDom, hc, hn]
  · simp [State.setDom, hi]

theorem Queued.setEnt (h : Queued s q) {se : Entity} (ho : se.onRq = (s.ents e).onRq)
    (hd : se.deadline = (s.ents e).deadline) (hv : se.vruntime = (s.ents e).vruntime) : Queued (s.setEnt e se) q := by
  refine h.congr rfl (fun i => ?_) fun _ => ⟨rfl, rfl⟩
  by_cases hi : i = e
  · subst hi
    simp [State.setEnt, ho, hd, hv]
  · simp [State.setEnt, hi]

/-- **Keys may change** while the lists stay sorted by them. -/
theorem Queued.rekey (h : Queued s q) (hlinks : s'.links = s.links) (hon : ∀ e, (s'.ents e).onRq = (s.ents e).onRq)
    (hdom : ∀ d, (s'.dom d).nrRunning = (s.dom d).nrRunning)
    (hsorted : ∀ d, (q d).Pairwise fun x y => s'.key d x ≤ s'.key d y) : Queued s' q :=
  ⟨hlinks ▸ h.rings, hsorted, fun d => (hdom d).trans (h.nrRunning d), fun e => by rw [hon]; exact h.onRq e⟩

/-! ## Queueing -/

@[simp] theorem link_links (pos : Node) : (link s d e pos).links = s.links.listAddTail (.entity e) pos := rfl

theorem link_ents (pos : Node) (x : Nat) :
    (link s d e pos).ents x = { s.ents x with onRq := if x = e then true else (s.ents x).onRq } := by
  by_cases hx : x = e
  · subst hx
    simp [link, State.setEnt, State.setDom]
  · simp [link, State.setEnt, State.setDom, hx]

theorem link_dom (pos : Node) (i : Nat) : (link s d e pos).dom i =
    { s.dom i with nrRunning := if i = d then (s.dom i).nrRunning + 1 else (s.dom i).nrRunning } := by
  by_cases hi : i = d
  · subst hi
    simp [link, State.setEnt, State.setDom]
  · simp [link, State.setEnt, State.setDom, hi]

theorem unlink_ents (x : Nat) :
    (unlink s d e).ents x = { s.ents x with onRq := if x = e then false else (s.ents x).onRq } := by
  by_cases hx : x = e
  · subst hx
    simp [unlink, State.setEnt, State.setDom]
  · simp [unlink, State.setEnt, State.setDom, hx]

theorem unlink_dom (i : Nat) : (unlink s d e).dom i =
    { s.dom i with nrRunning := if i = d then decr (s.dom i).nrRunning else (s.dom i).nrRunning } := by
  by_cases hi : i = d
  · subst hi
    simp [unlink, State.setEnt, State.setDom]
  · simp [unlink, State.setEnt, State.setDom, hi]

theorem key_congr (hc : (s'.dom d).sclass = (s.dom d).sclass) (hd : (s'.ents e).deadline = (s.ents e).deadline)
    (hv : (s'.ents e).vruntime = (s.ents e).vruntime) : s'.key d e = s.key d e := by
  unfold State.key
  rw [hc]
  cases (s.dom d).sclass <;> simp [Class.key, hd, hv]

theorem link_key (pos : Node) (i x : Nat) : (link s d e pos).key i x = s.key i x :=
  key_congr (by rw [link_dom]) (by rw [link_ents]) (by rw [link_ents])

theorem unlink_key (i x : Nat) : (unlink s d e).key i x = s.key i x :=
  key_congr (by rw [unlink_dom]) (by rw [unlink_ents]) (by rw [unlink_ents])

theorem Queued.not_mem (h : Queued s q) (hoff : (s.ents e).onRq = false) (i : Nat) : e ∉ q i := by
  intro hm
  rw [(h.onRq e).2 ⟨i, hm⟩] at hoff
  cases hoff

/-- **An entity that is linked nowhere is linked** between smaller keys and greater ones. -/
theorem Queued.link (h : Queued s q) (hoff : (s.ents e).onRq = false) {ys zs : List Nat} (hq : q d = ys ++ zs) {pos : Node}
    (hpos : pos = (zs.head?.map Node.entity).getD (head d)) (hys : ∀ y ∈ ys, s.key d y ≤ s.key d e)
    (hzs : ∀ z ∈ zs, s.key d e ≤ s.key d z) :
    Queued (link s d e pos) (Function.update q d (ys ++ e :: zs)) := by
  have hno := h.not_mem hoff
  have hhead : ∀ j, Node.entity e ≠ head j := fun j hj => by cases hj
  refine ⟨?_, fun i => ?_, fun i => ?_, fun x => ?_⟩
  · cases zs with
    | nil =>
      rw [List.append_nil] at hq
      subst hpos
      rw [← hq]
      exact h.rings.listAddTail_map entity_injective hhead hno
    | cons z zs =>
      subst hpos
      exact h.rings.insertBefore_map entity_injective hq hhead hno
  · simp only [link_key]
    by_cases hi : i = d
    · subst hi
      have hs := h.sorted i
      rw [hq, List.pairwise_append] at hs
      rw [Function.update_self]
      refine List.pairwise_append.2 ⟨hs.1, List.pairwise_cons.2 ⟨hzs, hs.2.1⟩, fun y hy z hz => ?_⟩
      rcases List.mem_cons.1 hz with rfl | hz
      · exact hys y hy
      · exact hs.2.2 y hy z hz
    · rw [Function.update_of_ne hi]
      exact h.sorted i
  · rw [link_dom]
    by_cases hi : i = d
    · subst hi
      rw [Function.update_self]
      simp [h.nrRunning, hq, Nat.add_assoc]
    · simp [hi, h.nrRunning]
  · rw [link_ents]
    by_cases hx : x = e
    · subst hx
      simp only [if_pos, true_iff]
      exact ⟨d, by simp⟩
    · simp only [if_neg hx, h.onRq x]
      refine exists_congr fun i => ?_
      by_cases hi : i = d
      · subst hi
        rw [Function.update_self, hq]
        simp [hx]
      · rw [Function.update_of_ne hi]

/-- **A linked entity is taken off its queue.** -/
theorem Queued.unlink (h : Queued s q) (he : e ∈ q d) : Queued (unlink s d e) (Function.update q d ((q d).erase e)) := by
  have hnd := h.rings.nodup_map d
  refine ⟨h.rings.listDel_map Node.null entity_injective he, fun i => ?_, fun i => ?_, fun x => ?_⟩
  · simp only [unlink_key]
    by_cases hi : i = d
    · subst hi
      rw [Function.update_self]
      exact (h.sorted i).sublist List.erase_sublist
    · rw [Function.update_of_ne hi]
      exact h.sorted i
  · rw [unlink_dom]
    by_cases hi : i = d
    · subst hi
      have hpos := List.length_pos_of_mem he
      rw [Function.update_self, List.length_erase_of_mem he]
      simp only [if_pos, h.nrRunning, decr]
      rw [if_neg (by omega)]
    · simp [hi, h.nrRunning]
  · rw [unlink_ents]
    by_cases hx : x = e
    · subst hx
      simp only [if_pos, Bool.false_eq_true, false_iff]
      rintro ⟨i, hi⟩
      by_cases hid : i = d
      · subst hid
        rw [Function.update_self] at hi
        exact hnd.not_mem_erase hi
      · rw [Function.update_of_ne hid] at hi
        exact hid (h.unique hi he)
    · simp only [if_neg hx, h.onRq x]
      exact exists_congr fun i => (mem_erase_of_ne hx).symm

theorem insertPos_head (key : Entity → Nat) (k : Nat) : insertPos s key k d (turns + 1) (head d) = some (head d) := by
  unfold insertPos
  exact if_pos rfl

theorem insertPos_entity (key : Entity → Nat) (k : Nat) : insertPos s key k d (turns + 1) (.entity x) =
    if k < key (s.ents x) then some (.entity x) else insertPos s key k d turns (s.links.next (.entity x)) := by
  have hne : Node.entity x ≠ head d := fun hc => by cases hc
  conv => lhs; unfold insertPos
  rw [if_neg hne]

/-- Where the loop of an enqueue ends. -/
theorem insertPos_spec (key : Entity → Nat) (k : Nat) : ∀ {turns : Nat} {a : Node} {xs : List Nat} {pos : Node},
    s.links.Seg a (xs.map Node.entity) (head d) → insertPos s key k d turns (s.links.next a) = some pos →
    ∃ ys zs, xs = ys ++ zs ∧ pos = (zs.head?.map Node.entity).getD (head d) ∧ (∀ y ∈ ys, key (s.ents y) ≤ k) ∧
      ∀ z ∈ zs.head?, k < key (s.ents z)
  | 0, _, _, _, _, h => by cases h
  | turns + 1, a, [], pos, hseg, h => by
    have hn : s.links.next a = head d := hseg.1
    rw [hn, insertPos_head] at h
    cases h
    exact ⟨[], [], rfl, rfl, by simp, by simp⟩
  | turns + 1, a, x :: xs, pos, hseg, h => by
    have hn : s.links.next a = .entity x := hseg.1.1
    rw [hn, insertPos_entity] at h
    by_cases hk : k < key (s.ents x)
    · rw [if_pos hk, Option.some.injEq] at h
      exact ⟨[], x :: xs, rfl, h.symm, by simp, by simpa using hk⟩
    · rw [if_neg hk] at h
      obtain ⟨ys, zs, rfl, hpos, hys, hzs⟩ := insertPos_spec key k hseg.2 h
      refine ⟨x :: ys, zs, rfl, hpos, fun y hy => ?_, hzs⟩
      rcases List.mem_cons.1 hy with rfl | hy
      · omega
      · exact hys y hy

/-- **It ends**, given more turns than there are entities. -/
theorem insertPos_isSome (key : Entity → Nat) (k : Nat) : ∀ {turns : Nat} {a : Node} {xs : List Nat},
    s.links.Seg a (xs.map Node.entity) (head d) → xs.length < turns →
    (insertPos s key k d turns (s.links.next a)).isSome
  | turns + 1, a, [], hseg, _ => by
    have hn : s.links.next a = head d := hseg.1
    rw [hn, insertPos_head]
    rfl
  | turns + 1, a, x :: xs, hseg, hlt => by
    have hn : s.links.next a = .entity x := hseg.1.1
    rw [hn, insertPos_entity]
    split
    · rfl
    · exact insertPos_isSome key k hseg.2 (by rw [List.length_cons] at hlt; omega)

/-- The keys behind the place of an insertion are all at least the new one. -/
theorem le_of_head {key : Nat → Nat} {k : Nat} {zs : List Nat} (hs : zs.Pairwise fun x y => key x ≤ key y)
    (hz : ∀ z ∈ zs.head?, k < key z) : ∀ z ∈ zs, k ≤ key z := by
  cases zs with
  | nil => simp
  | cons a l =>
    have ha : k < key a := hz a rfl
    intro z hm
    rcases List.mem_cons.1 hm with rfl | hm
    · omega
    · have := List.rel_of_pairwise_cons hs hm
      omega

/-- **An enqueue at the place its loop found.** -/
theorem Queued.insert (h : Queued s q) (hoff : (s.ents e).onRq = false) {key : Entity → Nat}
    (hkey : (s.dom d).sclass.key = key) {pos : Node}
    (hp : insertPos s key (key (s.ents e)) d turns (s.links.next (head d)) = some pos) : ∃ q', Queued (SchedHyper.link s d e pos) q' := by
  subst hkey
  obtain ⟨ys, zs, hq, hpos, hys, hzs⟩ := insertPos_spec _ _ (h.rings.ring d).seg hp
  have hs := h.sorted d
  rw [hq, List.pairwise_append] at hs
  exact ⟨_, h.link hoff hq hpos hys (le_of_head hs.2.1 hzs)⟩

theorem Queued.coopEnqueue (h : Queued s q) (hoff : (s.ents e).onRq = false) (hkey : ∀ i, s.key d i = 0) :
    ∃ q', Queued (coopEnqueue s d e) q' :=
  ⟨_, h.link hoff (List.append_nil _).symm rfl (fun y _ => Nat.le_of_eq ((hkey y).trans (hkey e).symm)) (by simp)⟩

theorem Queued.rtEnqueue (h : Queued s q) (hoff : (s.ents e).onRq = false) (hc : (s.dom d).sclass = .realtime)
    (hs : rtEnqueue turns s d e = some s') : ∃ q', Queued s' q' := by
  unfold SchedHyper.rtEnqueue at hs
  cases hp : insertPos s Entity.deadline (s.ents e).deadline d turns (s.links.next (head d)) with
  | none =>
    rw [hp] at hs
    cases hs
  | some pos =>
    rw [hp] at hs
    obtain ⟨q', hq'⟩ := h.insert hoff (by rw [hc]; rfl) hp
    obtain rfl := Option.some.inj hs
    refine ⟨q', ?_⟩
    split
    · exact hq'.setDom rfl rfl
    · exact hq'

/-- The key of an entity that is linked nowhere is free to change. -/
theorem Queued.setEnt_off (h : Queued s q) (hoff : (s.ents e).onRq = false) {se : Entity} (hse : se.onRq = false) :
    Queued (s.setEnt e se) q := by
  have hother : ∀ x, x ≠ e → (s.setEnt e se).ents x = s.ents x := fun x hx => by simp [State.setEnt, hx]
  refine h.rekey rfl (fun x => ?_) (fun _ => rfl) fun i => ?_
  · by_cases hx : x = e
    · subst hx
      simp [State.setEnt, hse, hoff]
    · rw [hother x hx]
  · refine (h.sorted i).imp_of_mem fun ha hb hle => ?_
    have hkey : ∀ x ∈ q i, (s.setEnt e se).key i x = s.key i x := fun x hx => by
      have hne : x ≠ e := by
        rintro rfl
        exact h.not_mem hoff i hx
      exact key_congr rfl (by rw [hother x hne]) (by rw [hother x hne])
    rw [hkey _ ha, hkey _ hb]
    exact hle

theorem Queued.fairEnqueue (h : Queued s q) (hoff : (s.ents e).onRq = false)
    (hc : (s.dom d).sclass.key = Entity.vruntime) (hs : fairEnqueue turns s d e = some s') : ∃ q', Queued s' q' := by
  unfold SchedHyper.fairEnqueue at hs
  generalize hu : (if (s.ents e).vruntime = 0 then s.setEnt e { s.ents e with vruntime := (s.dom d).minVruntime }
    else s) = u at hs
  have hq : Queued u q ∧ (u.ents e).onRq = false ∧ (u.dom d).sclass.key = Entity.vruntime := by
    subst hu
    split
    · exact ⟨h.setEnt_off hoff hoff, by simp [State.setEnt, hoff], hc⟩
    · exact ⟨h, hoff, hc⟩
  dsimp only at hs
  cases hp : insertPos u Entity.vruntime (u.ents e).vruntime d turns (u.links.next (head d)) with
  | none =>
    rw [hp] at hs
    cases hs
  | some pos =>
    rw [hp] at hs
    obtain ⟨q', hq'⟩ := hq.1.insert hq.2.1 hq.2.2 hp
    obtain rfl := Option.some.inj hs
    exact ⟨q', hq'.setEnt rfl rfl rfl⟩

/-- **`enqueue` of an entity that is linked nowhere** keeps the queues in order. -/
theorem Queued.enqueue (h : Queued s q) (hoff : (s.ents e).onRq = false) (hs : enqueue turns s d e = some s') :
    ∃ q', Queued s' q' := by
  unfold SchedHyper.enqueue at hs
  cases hc : (s.dom d).sclass with
  | cooperative =>
    simp only [hc] at hs
    obtain rfl := Option.some.inj hs
    exact h.coopEnqueue hoff fun i => by rw [State.key, hc]; rfl
  | idle =>
    simp only [hc] at hs
    obtain rfl := Option.some.inj hs
    exact h.coopEnqueue hoff fun i => by rw [State.key, hc]; rfl
  | realtime =>
    simp only [hc] at hs
    exact h.rtEnqueue hoff hc hs
  | fair =>
    simp only [hc] at hs
    exact h.fairEnqueue hoff (by rw [hc]; rfl) hs
  | batch =>
    simp only [hc] at hs
    exact h.fairEnqueue hoff (by rw [hc]; rfl) hs

/-- **`dequeue` of an entity that is linked there.** -/
theorem Queued.dequeue (h : Queued s q) (he : e ∈ q d) : Queued (dequeue s d e) (Function.update q d ((q d).erase e)) := by
  have hu := h.unlink he
  unfold SchedHyper.dequeue
  split
  · exact hu
  · exact hu
  · exact hu.setDom rfl rfl
  all_goals
    unfold SchedHyper.fairDequeue
    dsimp only
    split
    · exact hu
    · split
      · exact hu.setDom rfl rfl
      · exact hu

/-! ## The calls -/

def Node.entity? : Node → Option Nat
  | .entity e => some e
  | _ => none

/-- The queue of a domain, as `list_for_each` meets it. -/
def State.queue (s : State) (d : Nat) : List Nat :=
  ((s.links.entries (head d) ((s.dom d).nrRunning + 1)).getD []).filterMap Node.entity?

theorem Queued.queue (h : Queued s q) (d : Nat) : s.queue d = q d := by
  have hlt : ((q d).map Node.entity).length < (s.dom d).nrRunning + 1 := by
    rw [List.length_map, h.nrRunning]
    exact Nat.lt_succ_self _
  have he := (h.rings.ring d).entries hlt
  unfold State.queue
  rw [he, Option.getD_some, List.filterMap_map]
  exact List.filterMap_some

/-- A class with `fair_tick`. -/
def Class.Fair (c : Class) : Prop := c = .fair ∨ c = .batch

/-- **A tick of a linked `c` passes nobody**: in a fair or batch queue it is linked in, the `vruntime` it gets is no more
than its successors have, and no less than its predecessors. -/
def TickOk (s : State) (c : Nat) : Prop :=
  (s.ents c).onRq = true → ∀ d xs ys, (s.dom d).sclass.Fair → s.queue d = xs ++ c :: ys →
    (∀ x ∈ xs, (s.ents x).vruntime ≤ add64 (s.ents c).vruntime 1) ∧
      ∀ y ∈ ys, add64 (s.ents c).vruntime 1 ≤ (s.ents y).vruntime

/-- **A yield of a linked `c` may send it to the end**: it is in this domain's queue, which has a head to be sent to, and
its key is the greatest. -/
def YieldOk (s : State) (d c : Nat) : Prop :=
  (s.ents c).onRq = true → (s.dom d).sclass ≠ .idle ∧ c ∈ s.queue d ∧ ∀ x ∈ s.queue d, s.key d x ≤ s.key d c

/-- **The call does not touch an entity that is linked**, or not where it shows. -/
def CallOk (s : State) : Label → Prop
  | .attach e _ _ => (s.ents e).onRq = false
  | .detach e => ∀ d ∈ (s.ents e).domain, (s.ents e).onRq = true → e ∈ s.queue d
  | .tick cpu _ => ∀ d ∈ s.currentDomain cpu, ∀ c ∈ (s.dom d).curr, (s.dom d).sclass.Fair → TickOk s c
  | .yield cpu _ => ∀ d ∈ s.currentDomain cpu, ∀ c ∈ (s.dom d).curr, YieldOk s d c
  | .schedule .. | .setState .. => True

theorem Queued.attach (h : Queued s q) (hoff : (s.ents e).onRq = false)
    (hs : schedEntityAttach turns s e d = some s') : ∃ q', Queued s' q' := by
  have h1 : Queued (s.setEnt e { s.ents e with domain := some d }) q := h.setEnt rfl rfl rfl
  exact h1.enqueue (by simpa [State.setEnt] using hoff) hs

theorem Queued.detach (h : Queued s q) (hok : ∀ d ∈ (s.ents e).domain, (s.ents e).onRq = true → e ∈ s.queue d) :
    ∃ q', Queued (schedEntityDetach s e) q' := by
  unfold schedEntityDetach
  cases hd : (s.ents e).domain with
  | none => exact ⟨q, h⟩
  | some d =>
    dsimp only
    by_cases hon : (s.ents e).onRq = true
    · have hmem := hok d hd hon
      rw [h.queue] at hmem
      rw [if_pos hon]
      exact ⟨_, (h.dequeue hmem).setEnt rfl rfl rfl⟩
    · rw [if_neg hon]
      exact ⟨q, h.setEnt rfl rfl rfl⟩

theorem Queued.setCurrent (h : Queued s q) (cpu d : Nat) : Queued (s.setCurrent cpu d) q :=
  h.congr rfl (fun _ => ⟨rfl, rfl, rfl⟩) fun _ => ⟨rfl, rfl⟩

theorem Queued.requeuePrev (h : Queued s q) (hs : requeuePrev turns s d = some s') : ∃ q', Queued s' q' := by
  unfold SchedHyper.requeuePrev at hs
  split at hs
  · obtain rfl := Option.some.inj hs
    exact ⟨q, h⟩
  · split at hs
    · obtain rfl := Option.some.inj hs
      exact ⟨q, h⟩
    · split at hs
      · split at hs
        · cases hs
        · rename_i prev _ _ _ _ u hu
          obtain rfl := Option.some.inj hs
          split at hu
          · obtain rfl := Option.some.inj hu
            exact ⟨q, h.setEnt rfl rfl rfl⟩
          · rename_i hoff
            obtain ⟨q', hq'⟩ := h.enqueue (by simpa using hoff) hu
            exact ⟨q', hq'.setEnt rfl rfl rfl⟩
      · obtain rfl := Option.some.inj hs
        exact ⟨q, h⟩

/-- **What is picked is taken off its own queue.** -/
theorem Queued.switchTo (h : Queued s q) (d : Nat) : ∃ q', Queued (switchTo s d (pickNext s d)) q' := by
  unfold SchedHyper.switchTo
  cases hp : pickNext s d with
  | none => exact ⟨q, h.setDom rfl rfl⟩
  | some e =>
    have hmem : e ∈ q d := by
      rw [pickNext, h.firstEntity] at hp
      exact List.mem_of_mem_head? hp
    dsimp only
    split
    · exact ⟨_, (h.dequeue hmem).setDom rfl rfl⟩
    · exact ⟨q, h.setDom rfl rfl⟩

theorem Queued.scheduleTo (h : Queued s q) {o : Option Nat} (hs : scheduleTo turns s cpu = some (o, s')) :
    ∃ q', Queued s' q' := by
  unfold SchedHyper.scheduleTo currentOrPicked at hs
  split at hs
  · cases hs
    exact ⟨q, h⟩
  · rename_i d u hu
    obtain ⟨t, ht, heq⟩ := Option.map_eq_some_iff.1 hs
    cases heq
    have hq : Queued u q := by
      split at hu
      · cases hu
        exact h
      · split at hu
        · cases hu
        · cases hu
          exact h.setCurrent _ _
    exact hq.requeuePrev ht

theorem Queued.schedule (h : Queued s q) (hs : schedHypervisorSchedule turns s cpu = some s') : ∃ q', Queued s' q' := by
  unfold schedHypervisorSchedule at hs
  split at hs
  · cases hs
  · rename_i hto
    cases hs
    exact h.scheduleTo hto
  · rename_i d t hto
    cases hs
    obtain ⟨q', hq'⟩ := h.scheduleTo hto
    exact hq'.switchTo d

/-- **`vruntime++` of an entity that passes nobody.** -/
theorem Queued.bump (h : Queued s q) {c : Nat} (hok : TickOk s c) (slice : Int) :
    Queued (s.setEnt c { s.ents c with vruntime := add64 (s.ents c).vruntime 1, timeSlice := slice }) q := by
  by_cases hlinked : (s.ents c).onRq = true
  swap
  · exact h.setEnt_off (by simpa using hlinked) (by simpa using hlinked)
  generalize hse : ({ s.ents c with vruntime := add64 (s.ents c).vruntime 1, timeSlice := slice } : Entity) = se
  have hon : se.onRq = (s.ents c).onRq := hse ▸ rfl
  have hother : ∀ x, x ≠ c → (s.setEnt c se).ents x = s.ents x := fun x hx => by simp [State.setEnt, hx]
  refine h.rekey rfl (fun x => ?_) (fun _ => rfl) fun d => ?_
  · by_cases hx : x = c
    · subst hx
      simp [State.setEnt, hon]
    · rw [hother x hx]
  have hsame : ∀ x, x ≠ c → (s.setEnt c se).key d x = s.key d x := fun x hx =>
    key_congr rfl (by rw [hother x hx]) (by rw [hother x hx])
  by_cases hfair : (s.dom d).sclass.Fair
  · have hkey : ∀ x, s.key d x = (s.ents x).vruntime := fun x => by
      unfold State.key
      rcases hfair with hf | hf <;> rw [hf] <;> rfl
    have hkeyc : (s.setEnt c se).key d c = add64 (s.ents c).vruntime 1 := by
      have hc : (s.setEnt c se).ents c = se := by simp [State.setEnt]
      unfold State.key
      rw [hc, ← hse]
      rcases hfair with hf | hf <;> simp only [State.setEnt, hf] <;> rfl
    by_cases hmem : c ∈ q d
    · obtain ⟨xs, ys, hq⟩ := List.append_of_mem hmem
      obtain ⟨hxs, hys⟩ := hok hlinked d xs ys hfair ((h.queue d).trans hq)
      have hnd := h.rings.nodup_map d
      have hs := h.sorted d
      rw [hq] at hnd hs ⊢
      have hnx : ∀ x ∈ xs, x ≠ c := fun x hx heq => List.disjoint_of_nodup_append hnd hx (by simp [heq])
      have hny : ∀ y ∈ ys, y ≠ c := fun y hy heq =>
        (List.nodup_cons.1 (List.nodup_append.1 hnd).2.1).1 (heq ▸ hy)
      rw [List.pairwise_append, List.pairwise_cons] at hs
      refine List.pairwise_append.2 ⟨?_, List.pairwise_cons.2 ⟨fun y hy => ?_, ?_⟩, fun x hx y hy => ?_⟩
      · refine hs.1.imp_of_mem fun ha hb hle => ?_
        rwa [hsame _ (hnx _ ha), hsame _ (hnx _ hb)]
      · rw [hkeyc, hsame y (hny y hy), hkey]
        exact hys y hy
      · refine hs.2.1.2.imp_of_mem fun ha hb hle => ?_
        rwa [hsame _ (hny _ ha), hsame _ (hny _ hb)]
      · rw [hsame x (hnx x hx)]
        rcases List.mem_cons.1 hy with rfl | hy'
        · rw [hkeyc, hkey]
          exact hxs x hx
        · rw [hsame y (hny y hy')]
          exact hs.2.2 x hx y hy
    · refine (h.sorted d).imp_of_mem fun ha hb hle => ?_
      have hne : ∀ x ∈ q d, x ≠ c := fun x hx heq => hmem (heq ▸ hx)
      rwa [hsame _ (hne _ ha), hsame _ (hne _ hb)]
  · -- the key is the deadline, or none
    have hall : ∀ x, (s.setEnt c se).key d x = s.key d x := by
      intro x
      by_cases hx : x = c
      · subst hx
        have hc : (s.setEnt x se).ents x = se := by simp [State.setEnt]
        have hd : se.deadline = (s.ents x).deadline := hse ▸ rfl
        unfold State.key
        rw [hc]
        simp only [State.setEnt]
        unfold Class.Fair at hfair
        cases hcls : (s.dom d).sclass <;> simp_all [Class.key]
      · exact hsame x hx
    simp only [hall]
    exact h.sorted d

theorem Queued.fairTick (h : Queued s q) {c : Nat} (hok : TickOk s c) : Queued (fairTick s d c) q := by
  have hb := h.bump hok ((s.ents c).timeSlice - 1)
  unfold SchedHyper.fairTick
  dsimp only
  split
  · split
    · exact hb
    · exact hb.setDom rfl rfl
  · exact hb

theorem Queued.classTick (h : Queued s q) {c : Nat} (hok : (s.dom d).sclass.Fair → TickOk s c) :
    Queued (SchedHyper.classTick s d c) q := by
  unfold SchedHyper.classTick
  cases hc : (s.dom d).sclass with
  | fair => exact h.fairTick (hok (.inl hc))
  | batch => exact h.fairTick (hok (.inr hc))
  | cooperative => exact h
  | realtime => exact h
  | idle => exact h

theorem Queued.tickCurr (h : Queued s q) (hok : ∀ c ∈ (s.dom d).curr, (s.dom d).sclass.Fair → TickOk s c) :
    Queued (tickCurr s d) q := by
  unfold SchedHyper.tickCurr
  cases hc : (s.dom d).curr with
  | none => exact h
  | some c => exact h.classTick (hok c hc)

theorem Queued.switchDomain (h : Queued s q) (cpu d : Nat) : Queued (switchDomain s cpu d) q := by
  unfold SchedHyper.switchDomain
  split
  · exact h
  · split
    · exact h
    · exact h.setCurrent _ _

theorem Queued.tickBody (h : Queued s q)
    (hok : ∀ d ∈ s.currentDomain cpu, ∀ c ∈ (s.dom d).curr, (s.dom d).sclass.Fair → TickOk s c) :
    Queued (tickBody s cpu).2 q := by
  unfold SchedHyper.tickBody
  cases hd : s.currentDomain cpu with
  | none =>
    dsimp only
    split
    · exact h
    · exact h.setCurrent _ _
  | some d =>
    have hq := h.tickCurr (hok d hd)
    dsimp only
    generalize SchedHyper.tickCurr s d = u at hq ⊢
    have hset : ∀ n, Queued (u.setDom d { u.dom d with timesliceRemaining := n }) q := fun n => hq.setDom rfl rfl
    split
    · exact (hset _).switchDomain cpu d
    · exact hset _

/-- **A yield of the greatest key** keeps the order, wherever it goes among its equals. -/
theorem Queued.coopYield (h : Queued s q) {c : Nat} (hok : YieldOk s d c) : ∃ q', Queued (SchedHyper.coopYield s d c) q' := by
  unfold SchedHyper.coopYield
  by_cases hon : (s.ents c).onRq = true
  · obtain ⟨hidle, hmem, hmax⟩ := hok hon
    rw [h.queue] at hmem hmax
    rw [if_pos hon]
    have hdata : classData s d = head d := if_neg hidle
    have hnd := h.rings.nodup_map d
    -- off the queue, and linked again at its end
    have hoff : ((SchedHyper.unlink s d c).ents c).onRq = false := by rw [unlink_ents, if_pos rfl]
    have hre : Queued (SchedHyper.link (SchedHyper.unlink s d c) d c (head d)) _ := (h.unlink hmem).link hoff (List.append_nil _).symm rfl
      (fun y hy => by
        rw [Function.update_self] at hy
        rw [unlink_key, unlink_key]
        exact hmax y (List.mem_of_mem_erase hy)) (by simp)
    refine ⟨_, hre.congr ?_ (fun x => ?_) fun i => ?_⟩
    · rw [hdata]
      rfl
    · rw [link_ents, unlink_ents]
      by_cases hx : x = c
      · subst hx
        simp [hon]
      · simp [hx]
    · rw [link_dom, unlink_dom]
      by_cases hi : i = d
      · subst hi
        have hpos := List.length_pos_of_mem hmem
        simp only [if_pos, h.nrRunning, decr]
        rw [if_neg (by omega)]
        exact ⟨trivial, by omega⟩
      · simp [hi]
  · rw [if_neg hon]
    exact ⟨q, h⟩

theorem Queued.yieldBody (h : Queued s q) (hok : ∀ d ∈ s.currentDomain cpu, ∀ c ∈ (s.dom d).curr, YieldOk s d c)
    (hs : yieldBody s cpu = some s') : ∃ q', Queued s' q' := by
  unfold SchedHyper.yieldBody at hs
  cases hd : s.currentDomain cpu with
  | none =>
    rw [hd] at hs
    cases hs
  | some d =>
    rw [hd] at hs
    obtain ⟨c, hc, rfl⟩ := Option.map_eq_some_iff.1 hs
    exact h.coopYield (hok d hd c hc)

theorem step_queued {a : Label} (h : Queued s q) (hok : CallOk s a) (hs : step s a = some s') : ∃ q', Queued s' q' := by
  cases a with
  | attach e d turns => exact h.attach hok hs
  | detach e =>
    obtain rfl := Option.some.inj hs
    exact h.detach hok
  | tick cpu turns =>
    have hb := h.tickBody hok
    change schedHypervisorTick turns s cpu = some s' at hs
    unfold schedHypervisorTick at hs
    split at hs
    · exact hb.schedule hs
    · obtain rfl := Option.some.inj hs
      exact ⟨q, hb⟩
  | schedule cpu turns => exact h.schedule hs
  | yield cpu turns =>
    change schedHypervisorYield turns s cpu = some s' at hs
    unfold schedHypervisorYield at hs
    split at hs
    · obtain rfl := Option.some.inj hs
      exact ⟨q, h⟩
    · rename_i hy
      obtain ⟨q', hq'⟩ := h.yieldBody hok hy
      exact hq'.schedule hs
  | setState t b =>
    obtain rfl := Option.some.inj hs
    exact ⟨q, h.congr rfl (fun _ => ⟨rfl, rfl, rfl⟩) fun _ => ⟨rfl, rfl⟩⟩

/-- Where a call picks, the queues are in order too. -/
theorem atPick_queued {a : Label} (h : Queued s q) (hok : CallOk s a) {o : Option Nat} (hs : atPick s a = some (o, s')) :
    ∃ q', Queued s' q' := by
  cases a with
  | tick cpu turns =>
    simp only [atPick] at hs
    split at hs
    · exact (h.tickBody hok).scheduleTo hs
    · cases hs
  | schedule cpu turns => exact h.scheduleTo hs
  | yield cpu turns =>
    simp only [atPick] at hs
    split at hs
    · cases hs
    · rename_i hy
      obtain ⟨q', hq'⟩ := h.yieldBody hok hy
      exact hq'.scheduleTo hs
  | attach | detach | setState => cases hs

theorem init_queued (h : machine.init s) : Queued s fun _ => [] := by
  obtain ⟨hlinks, hent, hdom, -⟩ := h
  refine ⟨⟨fun d => Links.ring_nil (hlinks d).1 (hlinks d).2, fun i j hij => Node.queue.inj hij, by simp, by simp⟩,
    fun _ => List.Pairwise.nil, fun d => (hdom d).1, fun e => ?_⟩
  rw [(hent e).1]
  simp

/-! ### Calls return -/

/-- The queues are rings of entities, in whatever order. -/
def Ringed (s : State) : Prop := ∃ q : Nat → List Nat, s.links.Family head fun d => (q d).map Node.entity

theorem Queued.ringed (h : Queued s q) : Ringed s := ⟨q, h.rings⟩

theorem Ringed.congr (h : Ringed s) (hlinks : s'.links = s.links) : Ringed s' := by
  rw [Ringed, hlinks]
  exact h

theorem Ringed.insertPos_returns (h : Ringed s) (key : Entity → Nat) (k d : Nat) :
    ∃ turns, (insertPos s key k d turns (s.links.next (head d))).isSome := by
  obtain ⟨q, hq⟩ := h
  exact ⟨(q d).length + 1, insertPos_isSome key k (hq.ring d).seg (Nat.lt_succ_self _)⟩

/-- **An enqueue ends**, also of an entity that is linked. -/
theorem Ringed.enqueue_returns (h : Ringed s) (d e : Nat) : ∃ turns, (SchedHyper.enqueue turns s d e).isSome := by
  have hfair : ∃ turns, (SchedHyper.fairEnqueue turns s d e).isSome := by
    unfold SchedHyper.fairEnqueue
    generalize hu : (if (s.ents e).vruntime = 0 then s.setEnt e { s.ents e with vruntime := (s.dom d).minVruntime }
      else s) = u
    have hlinks : u.links = s.links := by
      subst hu
      split <;> rfl
    obtain ⟨turns, ht⟩ := (h.congr hlinks).insertPos_returns Entity.vruntime (u.ents e).vruntime d
    obtain ⟨pos, hp⟩ := Option.isSome_iff_exists.1 ht
    exact ⟨turns, by simp only [hp, Option.isSome_some]⟩
  have hrt : ∃ turns, (SchedHyper.rtEnqueue turns s d e).isSome := by
    obtain ⟨turns, ht⟩ := h.insertPos_returns Entity.deadline (s.ents e).deadline d
    obtain ⟨pos, hp⟩ := Option.isSome_iff_exists.1 ht
    exact ⟨turns, by simp only [SchedHyper.rtEnqueue, hp, Option.isSome_some]⟩
  unfold SchedHyper.enqueue
  cases (s.dom d).sclass with
  | cooperative => exact ⟨0, rfl⟩
  | idle => exact ⟨0, rfl⟩
  | realtime => exact hrt
  | fair => exact hfair
  | batch => exact hfair

/-- A `curr` that is linked is not enqueued, and no loop runs. -/
theorem requeuePrev_linked {prev : Nat} (hcurr : (s.dom d).curr = some prev) (hon : (s.ents prev).onRq = true)
    (turns : Nat) : (requeuePrev turns s d).isSome := by
  unfold requeuePrev
  rw [hcurr]
  dsimp only
  cases (s.ents prev).task with
  | none => rfl
  | some t =>
    dsimp only
    rw [if_pos hon]
    split <;> rfl

theorem Ringed.requeuePrev_returns (h : Ringed s) (d : Nat) : ∃ turns, (SchedHyper.requeuePrev turns s d).isSome := by
  cases hc : (s.dom d).curr with
  | none => exact ⟨0, by rw [SchedHyper.requeuePrev, hc]; rfl⟩
  | some prev =>
    by_cases hon : (s.ents prev).onRq = true
    · exact ⟨0, requeuePrev_linked hc hon 0⟩
    · obtain ⟨turns, ht⟩ := h.enqueue_returns d prev
      obtain ⟨u, hu⟩ := Option.isSome_iff_exists.1 ht
      refine ⟨turns, ?_⟩
      unfold SchedHyper.requeuePrev
      rw [hc]
      dsimp only
      rw [if_neg hon, hu]
      cases (s.ents prev).task with
      | none => rfl
      | some t =>
        dsimp only
        split <;> rfl

theorem schedule_isSome {u : State} (hc : currentOrPicked s cpu = some (d, u)) (h : (requeuePrev turns u d).isSome) :
    (schedHypervisorSchedule turns s cpu).isSome := by
  obtain ⟨t, ht⟩ := Option.isSome_iff_exists.1 h
  unfold schedHypervisorSchedule scheduleTo
  simp only [hc, ht, Option.map_some, Option.isSome_some]

theorem Ringed.schedule_returns (h : Ringed s) (cpu : Nat) :
    ∃ turns, (schedHypervisorSchedule turns s cpu).isSome := by
  cases hc : currentOrPicked s cpu with
  | none =>
    refine ⟨0, ?_⟩
    unfold schedHypervisorSchedule scheduleTo
    rw [hc]
    rfl
  | some r =>
    obtain ⟨d, u⟩ := r
    have hlinks : u.links = s.links := by
      unfold currentOrPicked at hc
      split at hc
      · cases hc
        rfl
      · split at hc
        · cases hc
        · cases hc
          rfl
    obtain ⟨turns, ht⟩ := (h.congr hlinks).requeuePrev_returns d
    exact ⟨turns, schedule_isSome hc ht⟩

theorem tickCurr_links (s : State) (d : Nat) : (tickCurr s d).links = s.links := by
  unfold tickCurr
  cases (s.dom d).curr with
  | none => rfl
  | some c =>
    have hfair : (fairTick s d c).links = s.links := by
      unfold fairTick
      dsimp only
      split
      · split <;> rfl
      · rfl
    dsimp only
    unfold classTick
    split
    · exact hfair
    · exact hfair
    all_goals rfl

/-- **A tick links and unlinks nothing** before it schedules. -/
theorem tickBody_links (s : State) (cpu : Nat) : (tickBody s cpu).2.links = s.links := by
  unfold tickBody
  cases s.currentDomain cpu with
  | none =>
    dsimp only
    split <;> rfl
  | some d =>
    dsimp only
    rw [← tickCurr_links s d]
    split
    · unfold switchDomain
      split
      · rfl
      · split <;> rfl
    · rfl

/-- **A yield returns**: one that moves an entity leaves it linked, and the call to schedule does not enqueue it. -/
theorem Ringed.yield_returns (h : Ringed s) (cpu : Nat) : ∃ turns, (schedHypervisorYield turns s cpu).isSome := by
  unfold schedHypervisorYield yieldBody
  cases hd : s.currentDomain cpu with
  | none => exact ⟨0, rfl⟩
  | some d =>
    dsimp only
    cases hc : (s.dom d).curr with
    | none => exact ⟨0, rfl⟩
    | some c =>
      rw [Option.map_some]
      dsimp only
      by_cases hon : (s.ents c).onRq = true
      · have hsame : coopYield s d c =
            { s with links := (s.links.listDel .null (.entity c)).listAddTail (.entity c) (classData s d) } := if_pos hon
        have hcur : currentOrPicked (coopYield s d c) cpu = some (d, coopYield s d c) := by
          rw [hsame, currentOrPicked]
          dsimp only
          rw [hd]
        have hlinked : (requeuePrev 0 (coopYield s d c) d).isSome :=
          requeuePrev_linked (by rw [hsame]; exact hc) (by rw [hsame]; exact hon) 0
        exact ⟨0, schedule_isSome hcur hlinked⟩
      · have hsame : coopYield s d c = s := if_neg hon
        rw [hsame]
        exact h.schedule_returns cpu

/-- The call with another bound on its loop. -/
def Label.withTurns (turns : Nat) : Label → Label
  | .attach e d _ => .attach e d turns
  | .tick cpu _ => .tick cpu turns
  | .schedule cpu _ => .schedule cpu turns
  | .yield cpu _ => .yield cpu turns
  | a => a

/-- **Every call returns while the queues are rings**, in whatever order the entities stand and whatever is done to a
linked one: no loop over a queue goes on for ever. -/
theorem call_returns (a : Label) (h : Ringed s) : ∃ turns, (step s (a.withTurns turns)).isSome := by
  cases a with
  | attach e d n =>
    have hset : Ringed (s.setEnt e { s.ents e with domain := some d }) := h.congr rfl
    exact hset.enqueue_returns d e
  | detach e => exact ⟨0, rfl⟩
  | tick cpu n =>
    obtain ⟨turns, ht⟩ := (h.congr (tickBody_links s cpu)).schedule_returns cpu
    refine ⟨turns, ?_⟩
    show (schedHypervisorTick turns s cpu).isSome
    unfold schedHypervisorTick
    split
    · exact ht
    · rfl
  | schedule cpu n => exact h.schedule_returns cpu
  | yield cpu n => exact h.yield_returns cpu
  | setState t b => exact ⟨0, rfl⟩

/-! ## Runs -/

/-- **A call is made, and picks, in order.** -/
def Sound (s : State) (a : Label) : Prop := InOrder s ∧ ∀ o t, atPick s a = some (o, t) → InOrder t

theorem keeps_queued (s : State) (a : Label) (t : State) (h : ∃ q, Queued s q) (hok : CallOk s a)
    (hs : machine.step s a = some t) : ∃ q, Queued t q := by
  obtain ⟨q, hq⟩ := h
  exact step_queued hq hok hs

theorem exists_queued (h0 : machine.init s) : ∃ q, Queued s q := ⟨_, init_queued h0⟩

/-- **In a run whose calls leave linked entities alone, the queues are in order throughout**, before each call, where it
picks, and at the end. -/
theorem inOrder_of_run (l : List Label) (s s' : State) (h0 : machine.init s) (h : machine.RunOk CallOk s l s') :
    machine.RunOk Sound s l s' ∧ InOrder s' := by
  obtain ⟨q, hend⟩ := machine.runOk_invariant keeps_queued l s s' (exists_queued h0) h
  refine ⟨machine.runOk_imp ?_ keeps_queued l s s' (exists_queued h0) h, hend.inOrder⟩
  rintro s a ⟨q, hq⟩ hok
  refine ⟨hq.inOrder, fun o t hp => ?_⟩
  obtain ⟨q', hq'⟩ := atPick_queued hq hok hp
  exact hq'.inOrder

/-- The domains of `sched_hypervisor_init`, and entities that all have a running task and the deadline 5. -/
def booted : State where
  links := ⟨id, id⟩
  ents _ := ⟨none, some 0, 0, 5, 100, false⟩
  dom d := ⟨if d = 0 then .realtime else if d = 1 then .fair else if d = 2 then .batch else .idle, 0, none, 100, true,
    100, 100, word64 - 1, 0⟩
  nrDomains := 4
  currentDomain _ := none
  running _ := true

theorem booted_init : machine.init booted :=
  ⟨fun _ => ⟨rfl, rfl⟩, fun _ => ⟨rfl, rfl⟩, fun _ => ⟨rfl, rfl⟩, fun _ => rfl⟩

/-- A tick of, and a yield by, an entity that is off the queue. -/
theorem callOk_of_off (d c : Nat) (hd : s.currentDomain cpu = some d) (hc : (s.dom d).curr = some c)
    (hoff : (s.ents c).onRq = false) (n : Nat) : CallOk s (.tick cpu n) ∧ CallOk s (.yield cpu n) := by
  constructor
  · intro d' hd' c' hc' _ hon
    obtain rfl := Option.some.inj (hd.symm.trans hd')
    obtain rfl := Option.some.inj (hc.symm.trans hc')
    rw [hoff] at hon
    cases hon
  · intro d' hd' c' hc' hon
    obtain rfl := Option.some.inj (hd.symm.trans hd')
    obtain rfl := Option.some.inj (hc.symm.trans hc')
    rw [hoff] at hon
    cases hon

/-- An entity of the fair domain runs, off the queue, when a second one arrives; it is ticked and yields. -/
theorem inOrder_of_run_yield : ∃ l s', l.length = 6 ∧ machine.RunOk Sound booted l s' ∧ InOrder s' :=
  ⟨[.attach 0 1 9, .tick 0 9, .schedule 0 9, .attach 1 1 9, .tick 0 9, .yield 0 9], _, rfl,
    inOrder_of_run _ _ _ booted_init ⟨rfl, _, rfl, (fun d hd => by cases hd), _, rfl, trivial, _, rfl, rfl, _, rfl,
      (callOk_of_off 1 0 rfl rfl rfl 9).1, _, rfl, (callOk_of_off 1 0 rfl rfl rfl 9).2, _, rfl, rfl⟩⟩

/-- An entity of the fair domain runs and a second one waits in the queue: the call to schedule walks it. -/
theorem call_returns_schedule : ∃ s', machine.run booted [.attach 0 1 9, .tick 0 9, .schedule 0 9, .attach 1 1 9] = some s' ∧
    s'.queue 1 = [1] ∧ (s'.dom 1).curr = some 0 ∧ ∃ turns, (step s' (.schedule 0 turns)).isSome := by
  have hrun : ∀ s', machine.RunOk CallOk booted [.attach 0 1 9, .tick 0 9, .schedule 0 9, .attach 1 1 9] s' → Ringed s' := by
    intro s' h
    obtain ⟨q, hq⟩ := machine.runOk_invariant keeps_queued _ _ _ (exists_queued booted_init) h
    exact hq.ringed
  exact ⟨_, rfl, rfl, rfl, call_returns (.schedule 0 0)
    (hrun _ ⟨rfl, _, rfl, (fun d hd => by cases hd), _, rfl, trivial, _, rfl, rfl, _, rfl, rfl⟩)⟩

/-- The first entity of the fair domain is picked again, and stays linked while it runs; a second one arrives; and a tick
makes the first one's `vruntime` the greater of the two. -/
theorem not_inOrder : ¬∀ (s s' : State) (l : List Label), machine.init s → machine.run s l = some s' → InOrder s' := by
  intro h
  have hrun : (machine.run booted [.attach 0 1 9, .tick 0 9, .schedule 0 9, .schedule 0 9, .attach 1 1 9, .tick 0 9]).any
      (fun s => s.links.entries (head 1) 9 = some [.entity 0, .entity 1] ∧ (s.dom 1).sclass = .fair ∧
        (s.ents 0).vruntime = 1 ∧ (s.ents 1).vruntime = 0) = true := by decide +kernel
  obtain ⟨s, hs, hlast⟩ := (Option.any_eq_true _ _).1 hrun
  simp only [decide_eq_true_eq] at hlast
  obtain ⟨hent, hclass, h0, h1⟩ := hlast
  obtain ⟨q, hq, -⟩ := h booted s _ booted_init hs
  have hlist := (hq.rings.ring 1).entries_eq hent
  have hsorted := hq.sorted 1
  have hq1 : q 1 = [0, 1] := List.map_injective_iff.2 entity_injective hlist.symm
  rw [hq1] at hsorted
  have hle := List.rel_of_pairwise_cons hsorted (List.mem_singleton.2 rfl)
  unfold State.key at hle
  rw [hclass] at hle
  simp only [Class.key] at hle
  omega

end SchedHyper
end Pico
