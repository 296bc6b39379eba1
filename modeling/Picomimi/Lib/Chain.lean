import Mathlib.Data.List.Basic
import Mathlib.Data.List.Nodup
import Mathlib.Data.List.Perm.Subperm
import Mathlib.Logic.Function.Basic
/-!
# Chain — doubly linked lists that end in NULL

A node has a `next` and a `prev`, each another node or `NULL`; whoever owns the list keeps a pointer to its first node.
`Path` is a stretch of such a list; `splice` writes the four fields that put a node between two others, and
`Path.splice` is what it does to the list.
-/
namespace Pico
namespace Lib

/-- The two pointers of every node. -/
structure Dll (α : Type) where
  next : α → Option α
  prev : α → Option α

namespace Dll

variable {α : Type} {D D' : Dll α}

/-- **From the pointer `h` over the nodes `xs` to the pointer `e`**: each node's `prev` is the node before it, the first
one's `p`. -/
def Path (D : Dll α) : Option α → Option α → List α → Option α → Prop
  | _, h, [], e => h = e
  | p, h, x :: xs, e => h = some x ∧ D.prev x = p ∧ D.Path (some x) (D.next x) xs e

/-- The last node, or what stands before the list when there is none. -/
def last (p : Option α) : List α → Option α
  | [] => p
  | x :: xs => last (some x) xs

theorem last_mem : ∀ {xs : List α} {p : Option α} {y : α}, last p xs = some y → p = some y ∨ y ∈ xs
  | [], _, _, h => .inl h
  | x :: xs, p, y, h => by
    rcases last_mem (show last (some x) xs = some y from h) with h | h
    · cases h
      exact .inr List.mem_cons_self
    · exact .inr (List.mem_cons_of_mem x h)

theorem last_some_ne_none : ∀ (xs : List α) (x : α), last (some x) xs ≠ none
  | [], _ => Option.some_ne_none _
  | y :: ys, _ => last_some_ne_none ys y

@[simp] theorem last_eq_none {xs : List α} : last none xs = none ↔ xs = [] := by
  cases xs with
  | nil => exact ⟨fun _ => rfl, fun _ => rfl⟩
  | cons x xs => exact ⟨fun h => absurd h (last_some_ne_none xs x), fun h => absurd h (List.cons_ne_nil x xs)⟩

/-- **The path reads the fields of its own nodes only.** -/
theorem Path.congr : ∀ {xs : List α} {p h e : Option α}, D.Path p h xs e →
    (∀ y ∈ xs, D'.next y = D.next y ∧ D'.prev y = D.prev y) → D'.Path p h xs e
  | [], _, _, _, hp, _ => hp
  | x :: xs, p, h, e, hp, hag => by
    obtain ⟨h1, h2, h3⟩ := hp
    obtain ⟨hn, hv⟩ := hag x List.mem_cons_self
    refine ⟨h1, hv.trans h2, ?_⟩
    rw [hn]
    exact Path.congr h3 (fun y hy => hag y (List.mem_cons_of_mem x hy))

theorem path_append : ∀ {xs ys : List α} {p h e : Option α},
    D.Path p h (xs ++ ys) e ↔ ∃ m, D.Path p h xs m ∧ D.Path (last p xs) m ys e
  | [], ys, p, h, e => by simp [Path, last]
  | x :: xs, ys, p, h, e => by
    have ih : ∀ p h : Option α, D.Path p h (xs ++ ys) e ↔ ∃ m, D.Path p h xs m ∧ D.Path (last p xs) m ys e :=
      fun _ _ => path_append
    simp only [List.cons_append, Path, last, ih]
    constructor
    · rintro ⟨h1, h2, m, h3, h4⟩
      exact ⟨m, ⟨h1, h2, h3⟩, h4⟩
    · rintro ⟨m, ⟨h1, h2, h3⟩, h4⟩
      exact ⟨h1, h2, m, h3, h4⟩

theorem Path.head_eq {xs : List α} {p h : Option α} (hp : D.Path p h xs none) : h = xs.head? := by
  cases xs with
  | nil => exact hp
  | cons x xs => exact hp.1

/-! ## Walking -/

/-- The nodes a `for (p = h; p; p = p->next)` loop visits in at most `fuel` turns. -/
def nodesFrom (D : Dll α) : Nat → Option α → List α
  | 0, _ => []
  | _ + 1, none => []
  | fuel + 1, some x => x :: nodesFrom D fuel (D.next x)

/-- **With a turn for every node the loop visits the whole list.** -/
theorem Path.nodesFrom_eq : ∀ {xs : List α} {p h : Option α} {fuel : Nat}, D.Path p h xs none → xs.length ≤ fuel →
    D.nodesFrom fuel h = xs
  | [], p, h, fuel, hp, _ => by
    cases hp
    cases fuel <;> rfl
  | x :: xs, p, h, 0, _, hle => absurd hle (by simp)
  | x :: xs, p, h, fuel + 1, hp, hle => by
    obtain ⟨rfl, _, hrest⟩ := hp
    simp only [nodesFrom, Path.nodesFrom_eq hrest (Nat.le_of_succ_le_succ hle)]

/-- **A node is visited once a visited one points to it**: the loop gets to `p` as before, or meets `x` on the way. -/
theorem mem_nodesFrom_of_next {x p : α} (hx : D'.next p = some x) (hne : ∀ y, y ≠ p → y ≠ x → D'.next y = D.next y) :
    ∀ {fuel : Nat} {h : Option α}, p ∈ D.nodesFrom fuel h → x ∈ D'.nodesFrom (fuel + 1) h
  | 0, _, hp => absurd hp List.not_mem_nil
  | _ + 1, none, hp => absurd hp List.not_mem_nil
  | fuel + 1, some y, hp => by
    by_cases hyx : y = x
    · rw [hyx]
      exact List.mem_cons_self
    refine List.mem_cons_of_mem y ?_
    by_cases hyp : y = p
    · rw [hyp, hx]
      exact List.mem_cons_self
    · rw [hne y hyp hyx]
      exact mem_nodesFrom_of_next hx hne ((List.mem_cons.1 hp).resolve_left (Ne.symm hyp))

/-- Different nodes below a bound are at most as many. -/
theorem length_le_of_lt {l : List Nat} {n : Nat} (hnd : l.Nodup) (h : ∀ x ∈ l, x < n) : l.length ≤ n := by
  have hsub : l ⊆ List.range n := fun x hx => List.mem_range.2 (h x hx)
  have hle := (hnd.subperm hsub).length_le
  rwa [List.length_range] at hle

/-! ## Putting a node between two others -/

variable [DecidableEq α]

def setNext (D : Dll α) (x : α) (q : Option α) : Dll α := { D with next := Function.update D.next x q }

def setPrev (D : Dll α) (x : α) (p : Option α) : Dll α := { D with prev := Function.update D.prev x p }

/-- `x->next = q; x->prev = p; if (p) p->next = x; if (q) q->prev = x;` -/
def splice (D : Dll α) (x : α) (p q : Option α) : Dll α :=
  let D := (D.setNext x q).setPrev x p
  let D := match p with
    | some a => D.setNext a (some x)
    | none => D
  match q with
  | some b => D.setPrev b (some x)
  | none => D

theorem splice_next (D : Dll α) (x : α) (p q : Option α) (y : α) :
    (D.splice x p q).next y = if p = some y then some x else if y = x then q else D.next y := by
  cases p <;> cases q <;> simp [splice, setNext, setPrev, Function.update_apply, eq_comm]

theorem splice_prev (D : Dll α) (x : α) (p q : Option α) (y : α) :
    (D.splice x p q).prev y = if q = some y then some x else if y = x then p else D.prev y := by
  cases p <;> cases q <;> simp [splice, setNext, setPrev, Function.update_apply, eq_comm]

/-- What has to be written for `x` to stand between `xs` and `ys`: the fields of `x`, of the last node before it and of
the first one after it, and no other. -/
theorem Path.insert {x : α} {ys : List α} : ∀ {xs : List α} {p h : Option α}, D.Path p h (xs ++ ys) none →
    (xs ++ ys).Nodup → (∀ y ∈ xs ++ ys, p ≠ some y) →
    D'.next x = ys.head? → D'.prev x = last p xs →
    (∀ y ∈ xs ++ ys, D'.next y = if last p xs = some y then some x else D.next y) →
    (∀ y ∈ xs ++ ys, D'.prev y = if ys.head? = some y then some x else D.prev y) →
    D'.Path p (if xs = [] then some x else h) (xs ++ x :: ys) none
  | [], p, h, hp, hnd, hout, hxn, hxp, hn, hv => by
    refine ⟨rfl, hxp, ?_⟩
    rw [hxn]
    cases ys with
    | nil => rfl
    | cons b ys =>
      obtain ⟨rfl, h2, h3⟩ := hp
      obtain ⟨hb, _⟩ := List.nodup_cons.1 hnd
      have hnb := (hn b (by simp)).trans (if_neg (hout b (by simp)))
      refine ⟨rfl, (hv b (by simp)).trans (if_pos rfl), ?_⟩
      rw [hnb]
      refine h3.congr fun y hy => ⟨?_, ?_⟩
      · exact (hn y (by simp [hy])).trans (if_neg (hout y (by simp [hy])))
      · rw [hv y (by simp [hy]), if_neg]
        intro he
        cases he
        exact hb hy
  | a :: xs, p, h, hp, hnd, hout, hxn, hxp, hn, hv => by
    obtain ⟨rfl, h2, h3⟩ := hp
    obtain ⟨ha, hnd'⟩ := List.nodup_cons.1 hnd
    have hya : ys.head? ≠ some a := by
      intro he
      exact ha (List.mem_append_right xs (List.mem_of_head? he))
    have hne : ∀ y ∈ xs ++ ys, some a ≠ some y := by
      intro y hy he
      cases he
      exact ha hy
    have hrest := Path.insert (p := some a) h3 hnd' hne hxn hxp
      (fun y hy => hn y (List.mem_cons_of_mem a hy)) (fun y hy => hv y (List.mem_cons_of_mem a hy))
    have hva := hv a List.mem_cons_self
    rw [if_neg hya] at hva
    refine ⟨rfl, hva.trans h2, ?_⟩
    have hna := hn a List.mem_cons_self
    by_cases hxs : xs = []
    · subst hxs
      rw [if_pos (by rfl)] at hna
      rw [hna]
      exact hrest
    · rw [if_neg hxs] at hrest
      have hl : last (some a) xs ≠ some a := by
        intro he
        cases xs with
        | nil => exact hxs rfl
        | cons c cs =>
          rcases last_mem (show last (some c) cs = some a from he) with h | h
          · cases h
            exact ha (by simp)
          · exact ha (by simp [h])
      rw [show last p (a :: xs) = last (some a) xs from rfl, if_neg hl] at hna
      rw [hna]
      exact hrest

/-- **`splice` inserts a node.** -/
theorem Path.splice {x : α} {xs ys : List α} {h : Option α} (hp : D.Path none h (xs ++ ys) none)
    (hnd : (xs ++ ys).Nodup) (hx : x ∉ xs ++ ys) :
    (D.splice x (last none xs) ys.head?).Path none (if xs = [] then some x else h) (xs ++ x :: ys) none := by
  have hlast : last none xs ≠ some x := by
    intro he
    rcases last_mem he with h | h
    · cases h
    · exact hx (List.mem_append_left ys h)
  have hhead : ys.head? ≠ some x := fun he => hx (List.mem_append_right xs (List.mem_of_head? he))
  refine hp.insert hnd (fun _ _ he => by cases he) ?_ ?_ ?_ ?_
  · rw [splice_next, if_neg hlast, if_pos rfl]
  · rw [splice_prev, if_neg hhead, if_pos rfl]
  · intro y hy
    rw [splice_next, if_neg (fun he : y = x => hx (he ▸ hy))]
  · intro y hy
    rw [splice_prev, if_neg (fun he : y = x => hx (he ▸ hy))]

end Dll
end Lib
end Pico
