import Mathlib.Data.List.Basic
import Mathlib.Data.List.Nodup
import Mathlib.Logic.Function.Iterate
import Mathlib.Tactic.Tauto
/-!
# Links — intrusive circular lists

A node has a `next` and a `prev`; a list is a head node and the ring of entries between it and itself.  The operations
write four or six fields and read two, whatever the nodes are; what they do to a well-formed ring (`Ring`) is to append or
to remove one entry, and a ring that shares no node with it does not notice.  `Family` is a set of rings over one store of
nodes, each behind its own head.
-/
namespace Pico
namespace Lib

/-- The two fields of every node. -/
structure Links (α : Type) where
  next : α → α
  prev : α → α

namespace Links

variable {α : Type}

/-! ## Segments and rings -/

/-- `b` follows `a`, and both fields say so. -/
def Linked (L : Links α) (a b : α) : Prop := L.next a = b ∧ L.prev b = a

/-- From `a` over the entries `xs` to `b`. -/
def Seg (L : Links α) : α → List α → α → Prop
  | a, [], b => L.Linked a b
  | a, x :: xs, b => L.Linked a x ∧ Seg L x xs b

/-- **The list behind `h` has the entries `xs`**, each once. -/
structure Ring (L : Links α) (h : α) (xs : List α) : Prop where
  seg : L.Seg h xs h
  nodup : (h :: xs).Nodup

variable {L L' : Links α}

theorem seg_append : ∀ {xs : List α} {a y b : α} {ys : List α},
    L.Seg a (xs ++ y :: ys) b ↔ L.Seg a xs y ∧ L.Seg y ys b
  | [], _, _, _, _ => Iff.rfl
  | x :: xs, a, y, b, ys => by
    simp only [List.cons_append, Seg, @seg_append xs, and_assoc]

/-- **The walk reads the fields of its own nodes only.** -/
theorem Seg.congr : ∀ {xs : List α} {a b : α}, L.Seg a xs b → (∀ y ∈ a :: xs, L'.next y = L.next y) →
    (∀ y ∈ xs, L'.prev y = L.prev y) → L'.prev b = L.prev b → L'.Seg a xs b
  | [], a, b, h, hn, _, hb => ⟨(hn a (by simp)).trans h.1, hb.trans h.2⟩
  | x :: xs, a, b, h, hn, hp, hb => by
    obtain ⟨⟨h1, h2⟩, hrest⟩ := h
    refine ⟨⟨(hn a (by simp)).trans h1, (hp x (by simp)).trans h2⟩, ?_⟩
    exact Seg.congr hrest (fun y hy => hn y (List.mem_cons_of_mem a hy))
      (fun y hy => hp y (List.mem_cons_of_mem x hy)) hb

/-- The last node before the end is where the end's `prev` points. -/
theorem Seg.prev_mem : ∀ {xs : List α} {a b : α}, L.Seg a xs b → L.prev b ∈ a :: xs
  | [], a, b, h => by
    rw [h.2]
    exact List.mem_singleton.2 rfl
  | x :: xs, a, b, h => List.mem_cons_of_mem a (Seg.prev_mem h.2)

/-- **A segment turned to another end**: only the fields between its last node and the end change. -/
theorem Seg.retarget : ∀ {xs : List α} {a b c : α}, L.Seg a xs b → (a :: xs).Nodup →
    (∀ y ∈ a :: xs, y ≠ L.prev b → L'.next y = L.next y) → (∀ y ∈ xs, L'.prev y = L.prev y) →
    L'.next (L.prev b) = c → L'.prev c = L.prev b → L'.Seg a xs c
  | [], a, b, c, h, _, _, _, hn, hp => by
    obtain ⟨-, h2⟩ := h
    rw [h2] at hn hp
    exact ⟨hn, hp⟩
  | x :: xs, a, b, c, h, hnd, hnext, hprev, hn, hp => by
    obtain ⟨⟨h1, h2⟩, hrest⟩ := h
    have hlast := Seg.prev_mem hrest
    have ha : a ≠ L.prev b := by
      intro heq
      rw [← heq] at hlast
      exact (List.nodup_cons.1 hnd).1 hlast
    refine ⟨⟨(hnext a (by simp) ha).trans h1, (hprev x (by simp)).trans h2⟩, ?_⟩
    exact Seg.retarget hrest (List.nodup_cons.1 hnd).2 (fun y hy => hnext y (List.mem_cons_of_mem a hy))
      (fun y hy => hprev y (List.mem_cons_of_mem x hy)) hn hp

theorem Seg.next_mem : ∀ {xs : List α} {a b : α}, L.Seg a xs b → L.next a ∈ xs ++ [b]
  | [], a, b, h => by
    rw [h.1]
    exact List.mem_singleton.2 rfl
  | x :: xs, a, b, h => by
    rw [h.1.1]
    simp

theorem Seg.next_mem_of_mem : ∀ {xs : List α} {a b y : α}, L.Seg a xs b → y ∈ a :: xs → L.next y ∈ xs ++ [b]
  | [], a, b, y, h, hy => by
    rw [List.mem_singleton.1 hy]
    exact h.next_mem
  | x :: xs, a, b, y, h, hy => by
    rcases List.mem_cons.1 hy with rfl | hy
    · exact h.next_mem
    · exact List.mem_cons_of_mem x (Seg.next_mem_of_mem h.2 hy)

/-- **A ring that shares no node with the edit stays.** -/
theorem Ring.congr {h : α} {xs : List α} (hr : L.Ring h xs)
    (hag : ∀ y ∈ h :: xs, L'.next y = L.next y ∧ L'.prev y = L.prev y) : L'.Ring h xs :=
  ⟨hr.seg.congr (fun y hy => (hag y hy).1) (fun y hy => (hag y (List.mem_cons_of_mem h hy)).2)
    (hag h (by simp)).2, hr.nodup⟩

theorem ring_nil {h : α} (hn : L.next h = h) (hp : L.prev h = h) : L.Ring h [] :=
  ⟨⟨hn, hp⟩, List.nodup_singleton h⟩

/-- What `list_first_entry` reads. -/
theorem Ring.next_cons {h x : α} {xs : List α} (hr : L.Ring h (x :: xs)) : L.next h = x := hr.seg.1.1

/-- **A ring has no first node**: it is also the ring behind any of its entries. -/
theorem Ring.rotate {h z : α} {ys zs : List α} (hr : L.Ring h (ys ++ z :: zs)) : L.Ring z (zs ++ h :: ys) := by
  obtain ⟨h1, h2⟩ := seg_append.1 hr.seg
  refine ⟨seg_append.2 ⟨h2, h1⟩, ?_⟩
  have hperm : (z :: zs ++ (h :: ys)).Perm (h :: ys ++ (z :: zs)) := List.perm_append_comm
  exact hperm.nodup_iff.2 hr.nodup

theorem Seg.prev_next {xs : List α} {a b : α} (h : L.Seg a xs b) : L.prev (L.next a) = a := by
  cases xs with
  | nil => rw [h.1, h.2]
  | cons x xs => rw [h.1.1, h.1.2]

theorem Seg.next_prev : ∀ {xs : List α} {a b : α}, L.Seg a xs b → L.next (L.prev b) = b
  | [], _, _, h => by rw [h.2, h.1]
  | _ :: _, _, _, h => Seg.next_prev h.2

/-- **In a ring the two fields undo each other.** -/
theorem Ring.next_prev {h y : α} {xs : List α} (hr : L.Ring h xs) (hy : y ∈ h :: xs) :
    L.next (L.prev y) = y ∧ L.prev (L.next y) = y ∧ L.prev y ∈ h :: xs := by
  rcases List.mem_cons.1 hy with rfl | hy
  · exact ⟨hr.seg.next_prev, hr.seg.prev_next, hr.seg.prev_mem⟩
  · obtain ⟨ys, zs, rfl⟩ := List.append_of_mem hy
    have hrot := hr.rotate
    refine ⟨hrot.seg.next_prev, hrot.seg.prev_next, ?_⟩
    have hmem := hrot.seg.prev_mem
    simp only [List.mem_cons, List.mem_append] at hmem ⊢
    tauto

/-- **Following `next` from the head never leaves the ring.** -/
theorem Ring.iterate_mem {h : α} {xs : List α} (hr : L.Ring h xs) : ∀ n, L.next^[n] h ∈ h :: xs
  | 0 => List.mem_cons_self
  | n + 1 => by
    rw [Function.iterate_succ_apply']
    have hn := hr.seg.next_mem_of_mem (hr.iterate_mem n)
    rcases List.mem_append.1 hn with hn | hn
    · exact List.mem_cons_of_mem h hn
    · rw [List.mem_singleton.1 hn]
      exact List.mem_cons_self

/-- **No entry follows itself.** -/
theorem Ring.next_ne {h x : α} {xs : List α} (hr : L.Ring h xs) (hx : x ∈ xs) : L.next x ≠ x := by
  intro heq
  obtain ⟨ys, zs, rfl⟩ := List.append_of_mem hx
  have hnd := hr.nodup
  rw [← List.cons_append] at hnd
  obtain ⟨-, hzs, hdisj⟩ := List.nodup_append.1 hnd
  have hn := (seg_append.1 hr.seg).2.next_mem
  rw [heq] at hn
  rcases List.mem_append.1 hn with hn | hn
  · exact (List.nodup_cons.1 hzs).1 hn
  · exact hdisj h (by simp) x (by simp) (List.mem_singleton.1 hn).symm

/-! ## The operations -/

variable [DecidableEq α]

def setNext (L : Links α) (x y : α) : Links α := { L with next := Function.update L.next x y }

def setPrev (L : Links α) (x y : α) : Links α := { L with prev := Function.update L.prev x y }

def initListHead (L : Links α) (list : α) : Links α := (L.setNext list list).setPrev list list

def listEmpty (L : Links α) (head : α) : Bool := L.next head = head

/-- `__list_add`. -/
def insert (L : Links α) (new prev next : α) : Links α :=
  (((L.setPrev next new).setNext new next).setPrev new prev).setNext prev new

def listAddTail (L : Links α) (new head : α) : Links α := L.insert new (L.prev head) head

/-- `__list_del`. -/
def unlink (L : Links α) (prev next : α) : Links α := (L.setPrev next prev).setNext prev next

/-- `list_del`, which leaves `null` in the entry's own fields. -/
def listDel (null : α) (L : Links α) (entry : α) : Links α :=
  ((L.unlink (L.prev entry) (L.next entry)).setNext entry null).setPrev entry null

/-- The entries from `x` on, up to the head, if they are reached in fewer than `fuel` steps. -/
def walkFrom (L : Links α) (head : α) : Nat → α → Option (List α)
  | 0, _ => none
  | fuel + 1, x => if x = head then some [] else (walkFrom L head fuel (L.next x)).map (x :: ·)

/-- `list_for_each`: the entries in the order the loop meets them. -/
def entries (L : Links α) (head : α) (fuel : Nat) : Option (List α) := L.walkFrom head fuel (L.next head)

/-- `INIT_LIST_HEAD` on an entry that is alone. -/
theorem initListHead_self {x : α} (hn : L.next x = x) (hp : L.prev x = x) : L.initListHead x = L := by
  have hnext := Function.update_eq_self x L.next
  have hprev := Function.update_eq_self x L.prev
  rw [hn] at hnext
  rw [hp] at hprev
  unfold initListHead setNext setPrev
  rw [hnext, hprev]

/-- What `list_empty` tests. -/
theorem Ring.listEmpty {h : α} {xs : List α} (hr : L.Ring h xs) : L.listEmpty h = true ↔ xs = [] := by
  unfold Links.listEmpty
  rw [decide_eq_true_iff]
  cases xs with
  | nil => exact ⟨fun _ => rfl, fun _ => hr.seg.1⟩
  | cons x xs =>
    refine ⟨fun heq => ?_, fun heq => by cases heq⟩
    have hx : L.next h = x := hr.seg.1.1
    have hne : h ≠ x := fun hhx => (List.nodup_cons.1 hr.nodup).1 (by rw [hhx]; simp)
    exact absurd (heq.symm.trans hx) hne

/-- The loop over a ring meets its entries, given more steps than there are. -/
theorem walkFrom_seg {h : α} : ∀ {xs : List α} {a : α} {fuel : Nat}, L.Seg a xs h → h ∉ xs → xs.length < fuel →
    L.walkFrom h fuel (L.next a) = some xs
  | [], a, fuel + 1, hs, _, _ => by
    simp only [walkFrom]
    rw [if_pos hs.1]
  | x :: xs, a, fuel + 1, hs, hh, hf => by
    obtain ⟨⟨h1, -⟩, hrest⟩ := hs
    simp only [List.mem_cons, not_or, List.length_cons] at hh hf
    simp only [walkFrom, h1]
    rw [if_neg (fun heq => hh.1 heq.symm), walkFrom_seg hrest hh.2 (by omega)]
    rfl

theorem walkFrom_some {h : α} : ∀ {xs ys : List α} {a : α} {fuel : Nat}, L.Seg a xs h → h ∉ xs →
    L.walkFrom h fuel (L.next a) = some ys → ys = xs
  | _, _, _, 0, _, _, hw => by cases hw
  | [], ys, a, fuel + 1, hs, _, hw => by
    simp only [walkFrom] at hw
    rw [if_pos hs.1] at hw
    cases hw
    rfl
  | x :: xs, ys, a, fuel + 1, hs, hh, hw => by
    obtain ⟨⟨h1, -⟩, hrest⟩ := hs
    simp only [List.mem_cons, not_or] at hh
    simp only [walkFrom, h1] at hw
    rw [if_neg (fun heq => hh.1 heq.symm)] at hw
    obtain ⟨zs, hz, rfl⟩ := Option.map_eq_some_iff.1 hw
    rw [walkFrom_some hrest hh.2 hz]

theorem Ring.entries {h : α} {xs : List α} (hr : L.Ring h xs) {fuel : Nat} (hf : xs.length < fuel) :
    L.entries h fuel = some xs :=
  walkFrom_seg hr.seg (List.nodup_cons.1 hr.nodup).1 hf

theorem Ring.entries_eq {h : α} {xs ys : List α} (hr : L.Ring h xs) {fuel : Nat}
    (he : L.entries h fuel = some ys) : ys = xs :=
  walkFrom_some hr.seg (List.nodup_cons.1 hr.nodup).1 he

section Ops

variable {n p h e : α} {xs : List α}

theorem next_insert (y : α) :
    (L.insert n p h).next y = if y = p then n else if y = n then h else L.next y := by
  simp only [insert, setNext, setPrev, Function.update_apply]

theorem prev_insert (y : α) :
    (L.insert n p h).prev y = if y = n then p else if y = h then n else L.prev y := by
  simp only [insert, setNext, setPrev, Function.update_apply]

theorem next_listDel (null y : α) :
    (listDel null L e).next y = if y = e then null else if y = L.prev e then L.next e else L.next y := by
  simp only [listDel, unlink, setNext, setPrev, Function.update_apply]

theorem prev_listDel (null y : α) :
    (listDel null L e).prev y = if y = e then null else if y = L.next e then L.prev e else L.prev y := by
  simp only [listDel, unlink, setNext, setPrev, Function.update_apply]

/-- **`list_add_tail` appends.** -/
theorem Ring.listAddTail (hr : L.Ring h xs) (hn : n ∉ h :: xs) : (L.listAddTail n h).Ring h (xs ++ [n]) := by
  have hp := hr.seg.prev_mem
  have hnp : n ≠ L.prev h := fun heq => hn (heq ▸ hp)
  have hnh : n ≠ h := fun heq => hn (by rw [heq]; simp)
  constructor
  · refine seg_append.2 ⟨?_, ?_⟩
    · refine hr.seg.retarget hr.nodup ?_ ?_ ?_ ?_
      · intro y hy hne
        have hyn : y ≠ n := fun heq => hn (heq ▸ hy)
        rw [Links.listAddTail, next_insert, if_neg hne, if_neg hyn]
      · intro y hy
        have hyn : y ≠ n := fun heq => hn (List.mem_cons_of_mem h (heq ▸ hy))
        have hyh : y ≠ h := fun heq => (List.nodup_cons.1 hr.nodup).1 (heq ▸ hy)
        rw [Links.listAddTail, prev_insert, if_neg hyn, if_neg hyh]
      · rw [Links.listAddTail, next_insert, if_pos rfl]
      · rw [Links.listAddTail, prev_insert, if_pos rfl]
    · constructor
      · rw [Links.listAddTail, next_insert, if_neg hnp, if_pos rfl]
      · rw [Links.listAddTail, prev_insert, if_neg hnh.symm, if_pos rfl]
  · rw [← List.cons_append]
    refine List.nodup_append.2 ⟨hr.nodup, List.nodup_singleton n, ?_⟩
    intro a ha b hb heq
    rw [List.mem_singleton.1 hb] at heq
    exact hn (heq ▸ ha)

/-- Away from the ring it appends to, `list_add_tail` changes nothing. -/
theorem listAddTail_frame (hr : L.Ring h xs) {y : α} (hy : y ∉ h :: xs) (hyn : y ≠ n) :
    (L.listAddTail n h).next y = L.next y ∧ (L.listAddTail n h).prev y = L.prev y := by
  have hyp : y ≠ L.prev h := fun heq => hy (heq ▸ hr.seg.prev_mem)
  have hyh : y ≠ h := fun heq => hy (by rw [heq]; simp)
  constructor
  · rw [Links.listAddTail, next_insert, if_neg hyp, if_neg hyn]
  · rw [Links.listAddTail, prev_insert, if_neg hyn, if_neg hyh]

/-- **`list_add_tail` to an entry** puts the node before it. -/
theorem Ring.insertBefore {z : α} {ys zs : List α} (hr : L.Ring h (ys ++ z :: zs)) (hn : n ∉ h :: (ys ++ z :: zs)) :
    (L.listAddTail n z).Ring h (ys ++ n :: z :: zs) := by
  have hn' : n ∉ z :: (zs ++ h :: ys) := by
    simp only [List.mem_cons, List.mem_append, not_or] at hn ⊢
    tauto
  have hr' := hr.rotate.listAddTail hn'
  rw [List.append_assoc, List.cons_append] at hr'
  have hback := hr'.rotate
  rwa [List.append_assoc, List.singleton_append] at hback

/-- **`list_del` removes the entry.** -/
theorem Ring.listDel (null : α) (hr : L.Ring h xs) (he : e ∈ xs) : (listDel null L e).Ring h (xs.erase e) := by
  obtain ⟨ys, zs, rfl⟩ := List.append_of_mem he
  have hnd := hr.nodup
  obtain ⟨hys, hzs⟩ := seg_append.1 hr.seg
  have hmid : (h :: ys).Nodup ∧ (e :: zs).Nodup ∧ ∀ a ∈ h :: ys, ∀ b ∈ e :: zs, a ≠ b := by
    rw [← List.cons_append] at hnd
    exact List.nodup_append.1 hnd
  obtain ⟨hnd1, hnd2, hdisj⟩ := hmid
  have heys : e ∉ ys := fun hm => hdisj e (List.mem_cons_of_mem h hm) e (by simp) rfl
  have hprev := hys.prev_mem
  have herase : (ys ++ e :: zs).erase e = ys ++ zs := by
    rw [List.erase_append_right _ heys, List.erase_cons_head]
  rw [herase]
  have hne : ∀ y ∈ h :: ys, y ≠ e := fun y hy heq => hdisj y hy e (by simp) heq
  have hpe : L.prev e ≠ e := hne _ hprev
  -- the first node after the entry, and the rest of the ring from it
  have hjoin : ∀ c, c = L.next e → c ≠ e → (∀ y ∈ ys, y ≠ c) → (Links.listDel null L e).Seg h ys c := by
    intro c hc hce hyc
    refine hys.retarget hnd1 ?_ ?_ ?_ ?_
    · intro y hy hyp
      rw [next_listDel, if_neg (hne y hy), if_neg hyp]
    · intro y hy
      rw [prev_listDel, if_neg (hne y (List.mem_cons_of_mem h hy)), if_neg (hc ▸ hyc y hy)]
    · rw [next_listDel, if_neg hpe, if_pos rfl, hc]
    · rw [prev_listDel, if_neg hce, if_pos hc]
  have hnodup : (h :: (ys ++ zs)).Nodup := by
    rw [← List.cons_append]
    exact List.nodup_append.2 ⟨hnd1, (List.nodup_cons.1 hnd2).2,
      fun a ha b hb => hdisj a ha b (List.mem_cons_of_mem e hb)⟩
  refine ⟨?_, hnodup⟩
  cases zs with
  | nil =>
    rw [List.append_nil]
    have hh : h ≠ e := hne h (by simp)
    exact hjoin h hzs.1.symm hh (fun y hy heq => (List.nodup_cons.1 hnd1).1 (heq ▸ hy))
  | cons z zs =>
    obtain ⟨⟨hz1, -⟩, hrest⟩ := hzs
    have hze : z ≠ e := fun heq => (List.nodup_cons.1 hnd2).1 (by rw [heq]; simp)
    refine seg_append.2 ⟨hjoin z hz1.symm hze (fun y hy => hdisj y (List.mem_cons_of_mem h hy) z (by simp)), ?_⟩
    have hzn := (List.nodup_cons.1 hnd2).2
    refine hrest.congr ?_ ?_ ?_
    · intro y hy
      have hye : y ≠ e := fun heq => (List.nodup_cons.1 hnd2).1 (heq ▸ hy)
      have hyp : y ≠ L.prev e := fun heq => hdisj _ hprev y (List.mem_cons_of_mem e hy) heq.symm
      rw [next_listDel, if_neg hye, if_neg hyp]
    · intro y hy
      have hye : y ≠ e := fun heq => (List.nodup_cons.1 hnd2).1 (List.mem_cons_of_mem z (heq ▸ hy))
      have hyz : y ≠ z := fun heq => (List.nodup_cons.1 hzn).1 (heq ▸ hy)
      rw [prev_listDel, if_neg hye, hz1, if_neg hyz]
    · have hhz : h ≠ z := hdisj h (by simp) z (by simp)
      rw [prev_listDel, if_neg (hne h (by simp)), hz1, if_neg hhz]

/-- Away from the ring it removes from, `list_del` changes nothing. -/
theorem listDel_frame (null : α) (hr : L.Ring h xs) (he : e ∈ xs) {y : α} (hy : y ∉ h :: xs) :
    (listDel null L e).next y = L.next y ∧ (listDel null L e).prev y = L.prev y := by
  obtain ⟨ys, zs, rfl⟩ := List.append_of_mem he
  obtain ⟨hys, hzs⟩ := seg_append.1 hr.seg
  have hye : y ≠ e := fun heq => hy (by rw [heq]; simp)
  have hyp : y ≠ L.prev e := by
    intro heq
    have := hys.prev_mem
    rw [← heq] at this
    rcases List.mem_cons.1 this with hm | hm
    · exact hy (by rw [hm]; simp)
    · exact hy (by simp [hm])
  have hyn : y ≠ L.next e := by
    intro heq
    have := hzs.next_mem
    rw [← heq] at this
    rcases List.mem_append.1 this with hm | hm
    · exact hy (by simp [hm])
    · exact hy (by rw [List.mem_singleton.1 hm]; simp)
  constructor
  · rw [next_listDel, if_neg hye, if_neg hyp]
  · rw [prev_listDel, if_neg hye, if_neg hyn]

end Ops

/-! ## Rings over one store -/

/-- **A set of rings over one store**: each behind its own head, no entry in two of them, no head among the entries. -/
structure Family {ι : Type} (L : Links α) (head : ι → α) (q : ι → List α) : Prop where
  ring : ∀ i, L.Ring (head i) (q i)
  inj : Function.Injective head
  head_not_mem : ∀ i j, head i ∉ q j
  apart : ∀ i j x, x ∈ q i → x ∈ q j → i = j

namespace Family

variable {ι : Type} [DecidableEq ι] {head : ι → α} {q : ι → List α} {i : ι} {n e : α}

/-- **One ring is edited**: the fields of the other nodes stay, and what is new to the ring was in none. -/
theorem update {xs : List α} (hf : Family L head q) (hring : L'.Ring (head i) xs)
    (hframe : ∀ y, y ∉ head i :: q i → y ∉ xs → L'.next y = L.next y ∧ L'.prev y = L.prev y)
    (hnew : ∀ x ∈ xs, x ∉ q i → (∀ j, x ≠ head j) ∧ ∀ j, x ∉ q j) : Family L' head (Function.update q i xs) := by
  have hhead : ∀ j, head j ∉ xs := fun j hj => by
    by_cases hjq : head j ∈ q i
    · exact hf.head_not_mem j i hjq
    · exact (hnew _ hj hjq).1 j rfl
  have hapart : ∀ j x, j ≠ i → x ∈ q j → x ∉ xs := fun j x hj hx hxs => by
    by_cases hxq : x ∈ q i
    · exact hj (hf.apart j i x hx hxq)
    · exact (hnew x hxs hxq).2 j hx
  constructor
  · intro j
    by_cases hj : j = i
    · subst hj
      rwa [Function.update_self]
    · rw [Function.update_of_ne hj]
      refine (hf.ring j).congr fun y hy => ?_
      rcases List.mem_cons.1 hy with rfl | hy
      · refine hframe _ (fun hm => ?_) (hhead j)
        rcases List.mem_cons.1 hm with hm | hm
        · exact hj (hf.inj hm)
        · exact hf.head_not_mem j i hm
      · refine hframe y (fun hm => ?_) (hapart j y hj hy)
        rcases List.mem_cons.1 hm with rfl | hm
        · exact hf.head_not_mem i j hy
        · exact hj (hf.apart j i y hy hm)
  · exact hf.inj
  · intro j k hm
    by_cases hk : k = i
    · rw [hk, Function.update_self] at hm
      exact hhead j hm
    · rw [Function.update_of_ne hk] at hm
      exact hf.head_not_mem j k hm
  · intro j k x hxj hxk
    by_cases hj : j = i <;> by_cases hk : k = i
    · rw [hj, hk]
    · rw [hj, Function.update_self] at hxj
      rw [Function.update_of_ne hk] at hxk
      exact absurd hxj (hapart k x hk hxk)
    · rw [hk, Function.update_self] at hxk
      rw [Function.update_of_ne hj] at hxj
      exact absurd hxk (hapart j x hj hxj)
    · rw [Function.update_of_ne hj] at hxj
      rw [Function.update_of_ne hk] at hxk
      exact hf.apart j k x hxj hxk

/-- **Appending a node that is in no ring.** -/
theorem listAddTail (hf : Family L head q) (hh : ∀ j, n ≠ head j) (hn : ∀ j, n ∉ q j) :
    Family (L.listAddTail n (head i)) head (Function.update q i (q i ++ [n])) := by
  have hni : n ∉ head i :: q i := by
    rw [List.mem_cons, not_or]
    exact ⟨hh i, hn i⟩
  refine hf.update ((hf.ring i).listAddTail hni) (fun y hy hys => listAddTail_frame (hf.ring i) hy ?_) fun x hx hxq => ?_
  · rintro rfl
    exact hys (by simp)
  · rcases List.mem_append.1 hx with hx | hx
    · exact absurd hx hxq
    · rw [List.mem_singleton.1 hx]
      exact ⟨hh, hn⟩

/-- **Putting a node that is in no ring before an entry.** -/
theorem insertBefore {z : α} {ys zs : List α} (hf : Family L head q) (hq : q i = ys ++ z :: zs) (hh : ∀ j, n ≠ head j)
    (hn : ∀ j, n ∉ q j) : Family (L.listAddTail n z) head (Function.update q i (ys ++ n :: z :: zs)) := by
  have hr := hf.ring i
  rw [hq] at hr
  have hni : n ∉ head i :: (ys ++ z :: zs) := by
    rw [List.mem_cons, not_or, ← hq]
    exact ⟨hh i, hn i⟩
  refine hf.update (hr.insertBefore hni) (fun y hy hys => listAddTail_frame hr.rotate ?_ ?_) fun x hx hxq => ?_
  · rw [hq] at hy
    simp only [List.mem_cons, List.mem_append, not_or] at hy ⊢
    tauto
  · rintro rfl
    exact hys (by simp)
  · rw [hq] at hxq
    rcases List.mem_append.1 hx with hx | hx
    · exact absurd (List.mem_append_left _ hx) hxq
    · rcases List.mem_cons.1 hx with rfl | hx
      · exact ⟨hh, hn⟩
      · exact absurd (List.mem_append_right _ hx) hxq

/-- **Removing an entry.** -/
theorem listDel (null : α) (hf : Family L head q) (he : e ∈ q i) :
    Family (Links.listDel null L e) head (Function.update q i ((q i).erase e)) :=
  hf.update ((hf.ring i).listDel null he) (fun _ hy _ => listDel_frame null (hf.ring i) he hy)
    fun _ hx hxq => absurd (List.mem_of_mem_erase hx) hxq

/-! ### Entries named from outside -/

section Map

variable {β : Type} {f : β → α} {q : ι → List β} {x : β}

omit [DecidableEq α] in
theorem update_map (f : β → α) (q : ι → List β) (i : ι) (xs : List β) :
    (fun j => (Function.update q i xs j).map f) = Function.update (fun j => (q j).map f) i (xs.map f) := by
  funext j
  by_cases hj : j = i
  · subst hj
    simp only [Function.update_self]
  · simp only [Function.update_of_ne hj]

theorem listAddTail_map (hf : Family L head fun j => (q j).map f) (hinj : Function.Injective f)
    (hh : ∀ j, f x ≠ head j) (hx : ∀ j, x ∉ q j) :
    Family (L.listAddTail (f x) (head i)) head fun j => (Function.update q i (q i ++ [x]) j).map f := by
  rw [update_map, List.map_append]
  exact hf.listAddTail hh fun j hm => hx j ((List.mem_map_of_injective hinj).1 hm)

theorem insertBefore_map {z : β} {ys zs : List β} (hf : Family L head fun j => (q j).map f)
    (hinj : Function.Injective f) (hq : q i = ys ++ z :: zs) (hh : ∀ j, f x ≠ head j) (hx : ∀ j, x ∉ q j) :
    Family (L.listAddTail (f x) (f z)) head fun j => (Function.update q i (ys ++ x :: z :: zs) j).map f := by
  rw [update_map, List.map_append, List.map_cons, List.map_cons]
  exact hf.insertBefore (by rw [hq, List.map_append, List.map_cons]) hh
    fun j hm => hx j ((List.mem_map_of_injective hinj).1 hm)

theorem listDel_map [DecidableEq β] (null : α) (hf : Family L head fun j => (q j).map f) (hinj : Function.Injective f) (hx : x ∈ q i) :
    Family (Links.listDel null L (f x)) head fun j => (Function.update q i ((q i).erase x) j).map f := by
  rw [update_map, List.map_erase hinj]
  exact hf.listDel null (List.mem_map_of_mem hx)

omit [DecidableEq α] [DecidableEq ι] in
theorem nodup_map (hf : Family L head fun j => (q j).map f) (i : ι) : (q i).Nodup :=
  List.Nodup.of_map _ (List.nodup_cons.1 (hf.ring i).nodup).2

end Map

end Family

end Links

/-! ## Tables of lists -/

section Table

variable {ι β : Type} [DecidableEq ι] {q : ι → List β} {i j : ι} {x y : β}

theorem mem_update_append {xs : List β} :
    y ∈ Function.update q i (q i ++ xs) j ↔ y ∈ q j ∨ (y ∈ xs ∧ j = i) := by
  by_cases hj : j = i
  · subst hj
    simp only [Function.update_self, List.mem_append, and_true]
  · simp only [Function.update_of_ne hj, hj, and_false, or_false]

theorem mem_append_of_ne (h : y ≠ x) : y ∈ Function.update q i (q i ++ [x]) j ↔ y ∈ q j := by
  rw [mem_update_append, List.mem_singleton]
  exact or_iff_left fun hx => h hx.1

variable [DecidableEq β]

theorem mem_of_update_erase (h : y ∈ Function.update q i ((q i).erase x) j) : y ∈ q j := by
  by_cases hj : j = i
  · subst hj
    rw [Function.update_self] at h
    exact List.mem_of_mem_erase h
  · rwa [Function.update_of_ne hj] at h

theorem mem_erase_of_ne (h : y ≠ x) : y ∈ Function.update q i ((q i).erase x) j ↔ y ∈ q j := by
  by_cases hj : j = i
  · subst hj
    rw [Function.update_self, List.mem_erase_of_ne h]
  · rw [Function.update_of_ne hj]

end Table
end Lib
end Pico
