import Mathlib.Data.List.Basic
import Mathlib.Data.List.Nodup
import Mathlib.Logic.Function.Basic
import Mathlib.Tactic.Tauto
/-!
# Slist — singly linked lists behind a table of heads

A list ends in NULL and is walked with a pointer to the pointer to the next node (`while (*pp) pp = &(*pp)->next`), so that
a node is taken out by one store through `pp`.  `Loc` is where such a pointer stands; `Family` says which lists the heads
begin; `Family.remove`, `Family.push` and `Family.setNext` are the three stores.
-/
namespace Pico
namespace Lib

/-- A table of heads, and the pointer of every node. -/
structure Slist (β α : Type) where
  head : β → Option α
  next : α → Option α

namespace Slist

variable {β α : Type}

/-- Where a `struct node **` points. -/
inductive Loc (β α : Type) where
  | head (b : β)
  | next (x : α)

def read (S : Slist β α) : Loc β α → Option α
  | .head b => S.head b
  | .next x => S.next x

def write [DecidableEq β] [DecidableEq α] (S : Slist β α) : Loc β α → Option α → Slist β α
  | .head b, v => { S with head := Function.update S.head b v }
  | .next x, v => { S with next := Function.update S.next x v }

/-- **From the pointer `h` over the nodes `xs` to the pointer `e`.** -/
def Seg (next : α → Option α) : Option α → List α → Option α → Prop
  | h, [], e => h = e
  | h, x :: xs, e => h = some x ∧ Seg next (next x) xs e

/-- The list behind `b` comes to the node `x`. -/
def On (S : Slist β α) (b : β) (x : α) : Prop := ∃ xs, Seg S.next (S.head b) xs (some x)

/-- **The lists are `L`**: each behind its head, each node once. -/
structure Family (S : Slist β α) (L : β → List α) : Prop where
  seg : ∀ b, Seg S.next (S.head b) (L b) none
  nodup : ∀ b, (L b).Nodup
  disjoint : ∀ b b' x, x ∈ L b → x ∈ L b' → b = b'

/-- A walk of the list behind `b` that has passed the nodes `xs`. -/
def locAfter (b : β) (xs : List α) : Loc β α :=
  match xs.getLast? with
  | none => .head b
  | some x => .next x

@[simp] theorem locAfter_nil (b : β) : locAfter b ([] : List α) = .head b := rfl

@[simp] theorem locAfter_concat (b : β) (xs : List α) (x : α) : locAfter b (xs ++ [x]) = .next x := by
  simp [locAfter]

theorem locAfter_cons (b : β) (x : α) {xs : List α} (h : xs ≠ []) : locAfter b (x :: xs) = locAfter b xs := by
  obtain ⟨ys, y, rfl⟩ := (List.eq_nil_or_concat' xs).resolve_left h
  rw [← List.cons_append, locAfter_concat, locAfter_concat]

variable {next next' : α → Option α}

theorem seg_append : ∀ {xs ys : List α} {h e : Option α},
    Seg next h (xs ++ ys) e ↔ ∃ m, Seg next h xs m ∧ Seg next m ys e
  | [], _, _, _ => by simp [Seg]
  | x :: xs, ys, h, e => by
    simp only [List.cons_append, Seg, @seg_append xs]
    constructor
    · rintro ⟨h1, m, h2, h3⟩
      exact ⟨m, ⟨h1, h2⟩, h3⟩
    · rintro ⟨m, ⟨h1, h2⟩, h3⟩
      exact ⟨h1, m, h2, h3⟩

/-- **The walk reads the pointers of its own nodes only.** -/
theorem Seg.congr : ∀ {xs : List α} {h e : Option α}, Seg next h xs e → (∀ y ∈ xs, next' y = next y) → Seg next' h xs e
  | [], _, _, hs, _ => hs
  | x :: xs, _, _, hs, hag => by
    refine ⟨hs.1, ?_⟩
    rw [hag x List.mem_cons_self]
    exact Seg.congr hs.2 (fun y hy => hag y (List.mem_cons_of_mem x hy))

theorem Seg.start {xs : List α} {h : Option α} (hs : Seg next h xs none) : h = xs.head? := by
  cases xs with
  | nil => exact hs
  | cons x xs => exact hs.1

/-- A walk that comes to `x` has passed a part of the list before `x`. -/
theorem Seg.mem_of_seg : ∀ {ys xs : List α} {h : Option α} {x : α}, Seg next h xs none → Seg next h ys (some x) → x ∈ xs
  | [], [], h, x, hs, hy => by
    rw [show h = some x from hy] at hs
    cases hs
  | [], z :: xs, h, x, hs, hy => by
    rw [show h = some x from hy, Seg, Option.some.injEq] at hs
    rw [hs.1]
    exact List.mem_cons_self
  | y :: ys, [], h, x, hs, hy => by
    rw [show h = some y from hy.1] at hs
    cases hs
  | y :: ys, z :: xs, h, x, hs, hy => by
    obtain ⟨h1, h2⟩ := hs
    obtain ⟨h3, h4⟩ := hy
    rw [h1, Option.some.injEq] at h3
    subst h3
    exact List.mem_cons_of_mem z (Seg.mem_of_seg h2 h4)

variable {S : Slist β α} {L : β → List α}

theorem Family.on_iff (F : S.Family L) (b : β) (x : α) : S.On b x ↔ x ∈ L b := by
  constructor
  · rintro ⟨ys, hy⟩
    exact (F.seg b).mem_of_seg hy
  · intro hx
    obtain ⟨pre, post, hL⟩ := List.append_of_mem hx
    have hseg := F.seg b
    rw [hL, seg_append] at hseg
    obtain ⟨m, h1, h2⟩ := hseg
    exact ⟨pre, h2.1 ▸ h1⟩

/-- **What `*pp` is**: the next node of the list. -/
theorem Family.read_locAfter (F : S.Family L) {b : β} {pre post : List α} (hL : L b = pre ++ post) :
    S.read (locAfter b pre) = post.head? := by
  have hseg := F.seg b
  rw [hL] at hseg
  rcases List.eq_nil_or_concat' pre with rfl | ⟨ys, y, rfl⟩
  · exact hseg.start
  · rw [List.append_assoc, seg_append] at hseg
    obtain ⟨m, -, h2⟩ := hseg
    rw [locAfter_concat]
    exact h2.2.start

variable [DecidableEq β] [DecidableEq α]

omit [DecidableEq α] in
/-- What is on the lists when a node is put at the front of one. -/
theorem mem_push {b c : β} {x y : α} : y ∈ Function.update L b (x :: L b) c ↔ (c = b ∧ y = x) ∨ y ∈ L c := by
  by_cases hc : c = b
  · subst hc
    rw [Function.update_self, List.mem_cons]
    exact or_congr_left (by simp)
  · rw [Function.update_of_ne hc]
    exact (or_iff_right fun h => hc h.1).symm

/-- **A store into a node on no list.** -/
theorem Family.setNext (F : S.Family L) {x : α} (hx : ∀ b, x ∉ L b) (v : Option α) :
    (S.write (.next x) v).Family L where
  seg b := (F.seg b).congr fun y hy => Function.update_of_ne (fun (h : y = x) => hx b (h ▸ hy)) _ _
  nodup := F.nodup
  disjoint := F.disjoint

/-- **A node is put at the front.** -/
theorem Family.push (F : S.Family L) {b : β} {x : α} (hx : ∀ b, x ∉ L b) (hnext : S.next x = S.head b) :
    (S.write (.head b) (some x)).Family (Function.update L b (x :: L b)) where
  seg c := by
    by_cases hc : c = b
    · subst hc
      simp only [write, Function.update_self]
      exact ⟨rfl, hnext ▸ F.seg c⟩
    · simp only [write, Function.update_of_ne hc]
      exact F.seg c
  nodup c := by
    by_cases hc : c = b
    · subst hc
      rw [Function.update_self]
      exact List.nodup_cons.2 ⟨hx c, F.nodup c⟩
    · rw [Function.update_of_ne hc]
      exact F.nodup c
  disjoint c c' y hy hy' := by
    rcases mem_push.1 hy with ⟨hc, hyx⟩ | hy <;> rcases mem_push.1 hy' with ⟨hc', hyx'⟩ | hy'
    · rw [hc, hc']
    · exact absurd (hyx ▸ hy') (hx c')
    · exact absurd (hyx' ▸ hy) (hx c)
    · exact F.disjoint c c' y hy hy'

omit [DecidableEq α] in
/-- The node taken out is on no list. -/
theorem Family.not_mem_remove (F : S.Family L) {b : β} {pre post : List α} {x : α} (hL : L b = pre ++ x :: post) (c : β) :
    x ∉ Function.update L b (pre ++ post) c := by
  have hnd := F.nodup b
  rw [hL] at hnd
  by_cases hc : c = b
  · subst hc
    rw [Function.update_self]
    exact (List.nodup_middle.1 hnd).notMem
  · rw [Function.update_of_ne hc]
    exact fun hx => hc (F.disjoint c b x hx (by rw [hL]; simp))

omit [DecidableEq α] in
/-- **What is left** when a node is taken out. -/
theorem Family.mem_remove (F : S.Family L) {b : β} {pre post : List α} {x : α} (hL : L b = pre ++ x :: post) {c : β}
    {y : α} : y ∈ Function.update L b (pre ++ post) c ↔ y ∈ L c ∧ y ≠ x := by
  constructor
  · intro hy
    refine ⟨?_, fun h => F.not_mem_remove hL c (h ▸ hy)⟩
    by_cases hc : c = b
    · subst hc
      rw [Function.update_self] at hy
      rw [hL]
      simp only [List.mem_append, List.mem_cons] at hy ⊢
      tauto
    · rwa [Function.update_of_ne hc] at hy
  · rintro ⟨hy, hne⟩
    by_cases hc : c = b
    · subst hc
      rw [hL] at hy
      rw [Function.update_self]
      simp only [List.mem_append, List.mem_cons] at hy ⊢
      tauto
    · rwa [Function.update_of_ne hc]

omit [DecidableEq α] in
theorem Family.mem_of_remove (F : S.Family L) {b : β} {pre post : List α} {x : α} (hL : L b = pre ++ x :: post) {c : β}
    {y : α} (hy : y ∈ Function.update L b (pre ++ post) c) : y ∈ L c :=
  ((F.mem_remove hL).1 hy).1

/-- **A node is taken out by a store through `pp`.** -/
theorem Family.remove (F : S.Family L) {b : β} {pre post : List α} {x : α} (hL : L b = pre ++ x :: post) :
    (S.write (locAfter b pre) (S.next x)).Family (Function.update L b (pre ++ post)) := by
  have hsub : ∀ c y, y ∈ Function.update L b (pre ++ post) c → y ∈ L c := fun _ _ hy => F.mem_of_remove hL hy
  have hnd := F.nodup b
  have hseg := F.seg b
  rw [hL] at hnd hseg
  refine ⟨fun c => ?_, fun c => ?_, fun c c' y hy hy' => F.disjoint c c' y (hsub c y hy) (hsub c' y hy')⟩
  · rcases List.eq_nil_or_concat' pre with rfl | ⟨ys, y, rfl⟩
    · -- the store is into the head
      by_cases hc : c = b
      · subst hc
        simp only [locAfter_nil, write, Function.update_self]
        exact hseg.2
      · simp only [locAfter_nil, write, Function.update_of_ne hc]
        exact F.seg c
    · -- the store is into the node before
      rw [locAfter_concat]
      have hyb : y ∈ L b := by
        rw [hL]
        simp
      by_cases hc : c = b
      · subst hc
        rw [Function.update_self]
        rw [List.append_assoc] at hnd
        obtain ⟨-, hnd2, hdis⟩ := List.nodup_append.1 hnd
        obtain ⟨hy, -⟩ := List.nodup_cons.1 hnd2
        rw [List.append_assoc, seg_append] at hseg ⊢
        obtain ⟨m, h1, h2, h3, h4⟩ := hseg
        refine ⟨m, h1.congr fun z hz => ?_, h2, ?_⟩
        · exact Function.update_of_ne (hdis z hz y (by simp)) _ _
        · show Seg (Function.update S.next y (S.next x)) (Function.update S.next y (S.next x) y) post none
          rw [Function.update_self]
          refine h4.congr fun z hz => ?_
          exact Function.update_of_ne (fun (h : z = y) => hy (h ▸ List.mem_cons_of_mem x hz)) _ _
      · rw [Function.update_of_ne hc]
        exact (F.seg c).congr fun z hz =>
          Function.update_of_ne (fun (h : z = y) => hc (F.disjoint c b z hz (h ▸ hyb))) _ _
  · by_cases hc : c = b
    · subst hc
      rw [Function.update_self]
      exact hnd.sublist (List.Sublist.append_left (List.sublist_cons_self x post) pre)
    · rw [Function.update_of_ne hc]
      exact F.nodup c

end Slist
end Lib
end Pico
