import Mathlib.Logic.Function.Basic
import Mathlib.Order.Basic
/-!
# Radix — a tree of tables in a flat memory

A table is `width` words; an entry may lead to a further table (`next`).  A path is the list of indices taken from the
root, the last one first, so that it is extended by `cons`; `tableAt` is the table at its end.  `Tree` says that the
tables of the tree are distinct and not free.  A store to an entry then changes the tree at that entry's path alone
(`tableAt_write`), and so does hanging a cleared table there (`tableAt_grow`); `Grows` is what any number of such stores
may do to the rest of the memory.
-/
namespace Pico
namespace Lib

/-- **How tables lie in memory**, and the tree looked at: `depth` levels below the root, of whose entries the first
`first` count. -/
structure Layout where
  slot : Nat → Nat → Nat        -- the address of an entry
  home : Nat → Nat              -- the table a word is in
  next : Nat → Option Nat       -- the table an entry leads to
  IsTable : Nat → Prop
  width : Nat
  first : Nat
  depth : Nat
  first_le : first ≤ width
  home_slot : ∀ t i, IsTable t → i < width → home (slot t i) = t
  slot_inj : ∀ t i j, IsTable t → i < width → j < width → slot t i = slot t j → i = j
  isTable_next : ∀ e t, next e = some t → IsTable t
  next_zero : next 0 = none

namespace Layout

variable (L : Layout)

/-- The table at the end of a path. -/
def tableAt (mem : Nat → Nat) (root : Nat) : List Nat → Option Nat
  | [] => some root
  | i :: p => (tableAt mem root p).bind fun t => L.next (mem (L.slot t i))

/-- An entry, which is 0 where there is no table for it. -/
def entryAt (mem : Nat → Nat) (root i : Nat) (p : List Nat) : Nat :=
  match L.tableAt mem root p with
  | none => 0
  | some t => mem (L.slot t i)

/-- The indices are in range. -/
def Valid : List Nat → Prop
  | [] => True
  | i :: p => (if p = [] then i < L.first else i < L.width) ∧ Valid p

/-- The paths that end at a table. -/
def Path (p : List Nat) : Prop := p.length ≤ L.depth ∧ L.Valid p

/-- The positions of entries. -/
def Entry (i : Nat) (p : List Nat) : Prop := L.Path p ∧ L.Valid (i :: p)

/-- A word of the tree. -/
def Owned (mem : Nat → Nat) (root a : Nat) : Prop :=
  ∃ i p t, L.Entry i p ∧ L.tableAt mem root p = some t ∧ a = L.slot t i

/-- **The tables of the tree are distinct, and in use.** -/
structure Tree (free : Nat → Prop) (mem : Nat → Nat) (root : Nat) : Prop where
  isRoot : L.IsTable root
  inj : ∀ p q t, L.Path p → L.Path q → L.tableAt mem root p = some t → L.tableAt mem root q = some t → p = q
  used : ∀ p t, L.Path p → L.tableAt mem root p = some t → ¬free t

/-- **What work on the tree may do**: it changes words of the tree and of free pages, some of which become tables. -/
structure Grows (free free' : Nat → Prop) (mem mem' : Nat → Nat) (root : Nat) : Prop where
  tree : L.Tree free' mem' root
  still : ∀ t, free' t → free t
  owned : ∀ a, L.Owned mem' root a → L.Owned mem root a ∨ free (L.home a)
  frame : ∀ a, ¬L.Owned mem root a → ¬free (L.home a) → mem' a = mem a
  kept : ∀ p t, L.Path p → L.tableAt mem root p = some t → L.tableAt mem' root p = some t

variable {L} {free free' : Nat → Prop} {mem mem' mem'' : Nat → Nat} {root i j t n a : Nat} {p q : List Nat}

theorem Valid.lt (h : L.Valid (i :: p)) : i < L.width := by
  have hi := h.1
  split at hi
  · exact Nat.lt_of_lt_of_le hi L.first_le
  · exact hi

theorem Path.tail (h : L.Path (i :: p)) : L.Path p := ⟨Nat.le_of_succ_le h.1, h.2.2⟩

theorem Path.entry (h : L.Path (i :: p)) : L.Entry i p := ⟨h.tail, h.2⟩

theorem Entry.path (h : L.Entry i p) (hp : p.length < L.depth) : L.Path (i :: p) := ⟨hp, h.2⟩

theorem path_nil : L.Path [] := ⟨Nat.zero_le _, trivial⟩

theorem tableAt_cons : L.tableAt mem root (i :: p) = (L.tableAt mem root p).bind fun t => L.next (mem (L.slot t i)) := rfl

theorem tableAt_of_parent (h : L.tableAt mem root p = some t) :
    L.tableAt mem root (i :: p) = L.next (mem (L.slot t i)) := by
  rw [tableAt_cons, h]
  rfl

theorem entryAt_of_table (h : L.tableAt mem root p = some t) : L.entryAt mem root i p = mem (L.slot t i) := by
  unfold entryAt
  rw [h]

theorem entryAt_of_none (h : L.tableAt mem root p = none) : L.entryAt mem root i p = 0 := by
  unfold entryAt
  rw [h]

theorem Tree.isTable (h : L.Tree free mem root) (ht : L.tableAt mem root p = some t) : L.IsTable t := by
  cases p with
  | nil =>
    cases ht
    exact h.isRoot
  | cons i p =>
    rw [tableAt_cons] at ht
    obtain ⟨u, -, hu⟩ := Option.bind_eq_some_iff.1 ht
    exact L.isTable_next _ _ hu

/-- **Two entries at one address are one entry.** -/
theorem Tree.slot_eq {u : Nat} (h : L.Tree free mem root) (hi : L.Entry i p) (hj : L.Entry j q)
    (ht : L.tableAt mem root p = some t) (hu : L.tableAt mem root q = some u) (he : L.slot u j = L.slot t i) :
    j = i ∧ q = p := by
  have hut : u = t := by
    rw [← L.home_slot u j (h.isTable hu) hj.2.lt, he, L.home_slot t i (h.isTable ht) hi.2.lt]
  subst hut
  exact ⟨L.slot_inj u j i (h.isTable hu) hj.2.lt hi.2.lt he, h.inj q p u hj.1 hi.1 hu ht⟩

/-- The tree looks at its own words only. -/
theorem tableAt_congr (h : ∀ a, L.Owned mem root a → mem' a = mem a) :
    ∀ {p : List Nat}, L.Path p → L.tableAt mem' root p = L.tableAt mem root p
  | [], _ => rfl
  | i :: p, hp => by
    rw [tableAt_cons, tableAt_cons, tableAt_congr h hp.tail]
    cases ht : L.tableAt mem root p with
    | none => rfl
    | some t =>
      have ha : L.Owned mem root (L.slot t i) := ⟨i, p, t, hp.entry, ht, rfl⟩
      rw [Option.bind_some, Option.bind_some, h _ ha]

theorem entryAt_congr (h : ∀ a, L.Owned mem root a → mem' a = mem a) (he : L.Entry i p) :
    L.entryAt mem' root i p = L.entryAt mem root i p := by
  unfold entryAt
  rw [tableAt_congr h he.1]
  cases ht : L.tableAt mem root p with
  | none => rfl
  | some t => exact h _ ⟨i, p, t, he, ht, rfl⟩

theorem owned_congr (h : ∀ a, L.Owned mem root a → mem' a = mem a) : L.Owned mem' root a ↔ L.Owned mem root a := by
  refine exists_congr fun i => exists_congr fun p => exists_congr fun t => and_congr_right fun he => ?_
  rw [tableAt_congr h he.1]

theorem Tree.congr (h : L.Tree free mem root) (hm : ∀ a, L.Owned mem root a → mem' a = mem a)
    (hf : ∀ t, free' t → free t) : L.Tree free' mem' root := by
  refine ⟨h.isRoot, fun p q t hp hq h1 h2 => ?_, fun p t hp h1 hc => ?_⟩
  · rw [tableAt_congr hm hp] at h1
    rw [tableAt_congr hm hq] at h2
    exact h.inj p q t hp hq h1 h2
  · rw [tableAt_congr hm hp] at h1
    exact h.used p t hp h1 (hf t hc)

/-- A word of the tree is in a table that is in use. -/
theorem Tree.not_free (h : L.Tree free mem root) (ha : L.Owned mem root a) : ¬free (L.home a) := by
  obtain ⟨i, p, t, he, ht, rfl⟩ := ha
  rw [L.home_slot t i (h.isTable ht) he.2.lt]
  exact h.used p t he.1 ht

/-! ## A store to an entry -/

section Store

variable (h : L.Tree free mem root) (he : L.Entry i p) (ht : L.tableAt mem root p = some t)
  (hm : ∀ a, a ≠ L.slot t i → mem' a = mem a)

include h he ht hm

/-- **A store to an entry** that leads where it did, or nowhere in the tree, leaves every table where it was. -/
theorem tableAt_write (hn : L.Path (i :: p) → L.next (mem' (L.slot t i)) = L.next (mem (L.slot t i))) :
    ∀ {q : List Nat}, L.Path q → L.tableAt mem' root q = L.tableAt mem root q
  | [], _ => rfl
  | j :: q, hq => by
    rw [tableAt_cons, tableAt_cons, tableAt_write hn hq.tail]
    cases hu : L.tableAt mem root q with
    | none => rfl
    | some u =>
      rw [Option.bind_some, Option.bind_some]
      by_cases hs : L.slot u j = L.slot t i
      · obtain ⟨rfl, rfl⟩ := h.slot_eq he hq.entry ht hu hs
        rw [hs, hn hq]
      · rw [hm _ hs]

/-- What the store says about every entry. -/
theorem entryAt_write (hn : L.Path (i :: p) → L.next (mem' (L.slot t i)) = L.next (mem (L.slot t i)))
    (hj : L.Entry j q) :
    L.entryAt mem' root j q = if j = i ∧ q = p then mem' (L.slot t i) else L.entryAt mem root j q := by
  have htab := tableAt_write h he ht hm hn hj.1
  by_cases hjq : j = i ∧ q = p
  · obtain ⟨rfl, rfl⟩ := hjq
    rw [if_pos ⟨rfl, rfl⟩, entryAt_of_table (htab.trans ht)]
  · rw [if_neg hjq]
    unfold entryAt
    rw [htab]
    cases hu : L.tableAt mem root q with
    | none => rfl
    | some u => exact hm _ fun hs => hjq (h.slot_eq he hj ht hu hs)

theorem grows_write (hn : L.Path (i :: p) → L.next (mem' (L.slot t i)) = L.next (mem (L.slot t i))) :
    L.Grows free free mem mem' root := by
  have htab := fun {q : List Nat} => tableAt_write h he ht hm hn (q := q)
  refine ⟨⟨h.isRoot, fun p q t hp hq h1 h2 => ?_, fun p t hp h1 => ?_⟩, fun _ hf => hf, fun a ha => .inl ?_, fun a ha _ => ?_,
    fun q u hq hu => ?_⟩
  · rw [htab hp] at h1
    rw [htab hq] at h2
    exact h.inj p q t hp hq h1 h2
  · rw [htab hp] at h1
    exact h.used p t hp h1
  · obtain ⟨j, q, u, hj, hu, rfl⟩ := ha
    rw [htab hj.1] at hu
    exact ⟨j, q, u, hj, hu, rfl⟩
  · exact hm a fun hc => ha ⟨i, p, t, he, ht, hc⟩
  · rw [htab hq]
    exact hu

end Store

/-! ## A new table -/

section Grow

variable (h : L.Tree free mem root) (he : L.Path (i :: p)) (ht : L.tableAt mem root p = some t)
  (hno : L.next (mem (L.slot t i)) = none) (hn : free n) (htn : L.IsTable n)
  (hm : ∀ a, L.home a ≠ n → a ≠ L.slot t i → mem' a = mem a)
  (hz : ∀ j, j < L.width → mem' (L.slot n j) = 0) (hnew : L.next (mem' (L.slot t i)) = some n)

include h he ht hno hn hm hz hnew

/-- **A cleared table hung under an entry** is the only table more. -/
theorem tableAt_grow : ∀ {q : List Nat}, L.Path q →
    L.tableAt mem' root q = if q = i :: p then some n else L.tableAt mem root q
  | [], _ => by
    rw [if_neg (List.cons_ne_nil i p).symm]
    rfl
  | j :: q, hq => by
    rw [tableAt_cons, tableAt_grow hq.tail]
    by_cases hqp : q = i :: p
    · -- below the new table there is nothing
      have hne : j :: q ≠ i :: p := fun hc => by
        have hlen := congrArg List.length (hqp ▸ (List.cons.inj hc).2)
        simp only [List.length_cons] at hlen
        omega
      rw [if_pos hqp, if_neg hne, Option.bind_some, hz j hq.2.lt, L.next_zero, hqp, tableAt_cons,
        tableAt_of_parent ht, hno, Option.bind_none]
    rw [if_neg hqp]
    cases hu : L.tableAt mem root q with
    | none =>
      have hne : j :: q ≠ i :: p := fun hc => by
        rw [(List.cons.inj hc).2, ht] at hu
        cases hu
      rw [if_neg hne, Option.bind_none, tableAt_cons, hu, Option.bind_none]
    | some u =>
      rw [Option.bind_some]
      by_cases hs : L.slot u j = L.slot t i
      · obtain ⟨rfl, rfl⟩ := h.slot_eq he.entry hq.entry ht hu hs
        rw [if_pos rfl, hs, hnew]
      · have hhome : L.home (L.slot u j) ≠ n := by
          rw [L.home_slot u j (h.isTable hu) hq.2.lt]
          rintro rfl
          exact h.used q u hq.tail hu hn
        have hne : j :: q ≠ i :: p := fun hc => by
          obtain ⟨rfl, rfl⟩ := List.cons.inj hc
          rw [ht] at hu
          cases hu
          exact hs rfl
        rw [if_neg hne, hm _ hhome hs, tableAt_of_parent hu]

/-- The entries are as before, but for the one that leads to the new table. -/
theorem entryAt_grow (hj : L.Entry j q) (hne : ¬(j = i ∧ q = p)) : L.entryAt mem' root j q = L.entryAt mem root j q := by
  have htab := tableAt_grow h he ht hno hn hm hz hnew hj.1
  by_cases hqp : q = i :: p
  · rw [if_pos hqp] at htab
    rw [entryAt_of_table htab, hz j hj.2.lt, hqp, entryAt_of_none]
    rw [tableAt_of_parent ht]
    exact hno
  rw [if_neg hqp] at htab
  unfold entryAt
  rw [htab]
  cases hu : L.tableAt mem root q with
  | none => rfl
  | some u =>
    refine hm _ ?_ fun hs => hne (h.slot_eq he.entry hj ht hu hs)
    rw [L.home_slot u j (h.isTable hu) hj.2.lt]
    rintro rfl
    exact h.used q u hj.1 hu hn

include htn

theorem grows_table (hf : ∀ t, free' t → free t ∧ t ≠ n) : L.Grows free free' mem mem' root := by
  have htab := fun {q : List Nat} => tableAt_grow h he ht hno hn hm hz hnew (q := q)
  have hfresh : ∀ q u, L.Path q → L.tableAt mem root q = some u → u ≠ n := by
    rintro q u hq hu rfl
    exact h.used q u hq hu hn
  have hnone : L.tableAt mem root (i :: p) = none := (tableAt_of_parent ht).trans hno
  refine ⟨⟨h.isRoot, fun q r u hq hr h1 h2 => ?_, fun q u hq h1 hc => ?_⟩, fun u hu => (hf u hu).1, fun a ha => ?_,
    fun a ha hfr => ?_, fun q u hq hu => ?_⟩
  · rw [htab hq] at h1
    rw [htab hr] at h2
    by_cases hqn : q = i :: p <;> by_cases hrn : r = i :: p
    · rw [hqn, hrn]
    · rw [if_pos hqn] at h1
      rw [if_neg hrn] at h2
      exact absurd (Option.some.inj h1).symm (hfresh r u hr h2)
    · rw [if_neg hqn] at h1
      rw [if_pos hrn] at h2
      exact absurd (Option.some.inj h2).symm (hfresh q u hq h1)
    · rw [if_neg hqn] at h1
      rw [if_neg hrn] at h2
      exact h.inj q r u hq hr h1 h2
  · rw [htab hq] at h1
    split at h1
    · exact (hf u hc).2 (Option.some.inj h1).symm
    · exact h.used q u hq h1 (hf u hc).1
  · obtain ⟨j, q, u, hj, hu, rfl⟩ := ha
    rw [htab hj.1] at hu
    split at hu
    · cases hu
      right
      rw [L.home_slot n j htn hj.2.lt]
      exact hn
    · exact .inl ⟨j, q, u, hj, hu, rfl⟩
  · refine hm a (fun hc => hfr (hc ▸ hn)) fun hc => ha ⟨i, p, t, he.entry, ht, hc⟩
  · rw [htab hq, if_neg]
    · exact hu
    · rintro rfl
      rw [hnone] at hu
      cases hu

end Grow

/-! ## A new root -/

section Empty

variable (hz : ∀ i, i < L.first → mem (L.slot root i) = 0)

include hz

theorem tableAt_empty : ∀ {p : List Nat}, L.Path p → p ≠ [] → L.tableAt mem root p = none
  | [], _, h => absurd rfl h
  | [i], hp, _ => by
    have hi : i < L.first := hp.2.1
    rw [tableAt_cons]
    show L.next (mem (L.slot root i)) = none
    rw [hz i hi, L.next_zero]
  | i :: j :: p, hp, _ => by
    rw [tableAt_cons, tableAt_empty hp.tail (List.cons_ne_nil j p)]
    rfl

theorem entryAt_empty (he : L.Entry i p) : L.entryAt mem root i p = 0 := by
  cases p with
  | nil => exact hz i he.2.1
  | cons j p => exact entryAt_of_none (tableAt_empty hz he.1 (List.cons_ne_nil j p))

/-- **A root without entries is a tree of one table.** -/
theorem tree_empty (ht : L.IsTable root) (hf : ¬free root) : L.Tree free mem root := by
  have hnil : ∀ p t, L.Path p → L.tableAt mem root p = some t → p = [] ∧ t = root := by
    intro p t hp h1
    by_cases hpn : p = []
    · subst hpn
      cases h1
      exact ⟨rfl, rfl⟩
    · rw [tableAt_empty hz hp hpn] at h1
      cases h1
  refine ⟨ht, fun p q t hp hq h1 h2 => ?_, fun p t hp h1 => ?_⟩
  · rw [(hnil p t hp h1).1, (hnil q t hq h2).1]
  · rw [(hnil p t hp h1).2]
    exact hf

theorem home_of_owned_empty (ht : L.IsTable root) (ha : L.Owned mem root a) : L.home a = root := by
  obtain ⟨i, p, t, he, h1, rfl⟩ := ha
  by_cases hpn : p = []
  · subst hpn
    cases h1
    exact L.home_slot root i ht he.2.lt
  · rw [tableAt_empty hz he.1 hpn] at h1
    cases h1

end Empty

/-! ## Sequences of stores -/

theorem Tree.refl (h : L.Tree free mem root) : L.Grows free free mem mem root :=
  ⟨h, fun _ hf => hf, fun _ ha => .inl ha, fun _ _ _ => rfl, fun _ _ _ ht => ht⟩

theorem Grows.trans {free'' : Nat → Prop} (h : L.Grows free free' mem mem' root) (h' : L.Grows free' free'' mem' mem'' root) :
    L.Grows free free'' mem mem'' root := by
  have howned : ∀ a, L.Owned mem' root a ∨ free' (L.home a) → L.Owned mem root a ∨ free (L.home a) := by
    rintro a (ha | ha)
    · exact h.owned a ha
    · exact .inr (h.still _ ha)
  refine ⟨h'.tree, fun t ht => h.still t (h'.still t ht), fun a ha => howned a (h'.owned a ha), fun a ha hf => ?_,
    fun p t hp ht => h'.kept p t hp (h.kept p t hp ht)⟩
  have hno : ¬(L.Owned mem' root a ∨ free' (L.home a)) := fun hc => (howned a hc).elim ha hf
  rw [h'.frame a (fun hc => hno (.inl hc)) fun hc => hno (.inr hc), h.frame a ha hf]

/-- A page taken, and stores to pages taken: neither concerns the tree. -/
theorem Tree.grows_data (h : L.Tree free mem root) (hf : ∀ t, free' t → free t)
    (hm : ∀ a, ¬free (L.home a) → mem' a = mem a) : L.Grows free free' mem mem' root := by
  have hown : ∀ a, L.Owned mem root a → mem' a = mem a := fun a ha => hm a (h.not_free ha)
  refine ⟨h.congr hown hf, hf, fun a ha => .inl ((owned_congr hown).1 ha), fun a _ hfr => hm a hfr, fun p t hp ht => ?_⟩
  rw [tableAt_congr hown hp]
  exact ht

/-- **Work on one tree leaves another alone**, when they share no word. -/
theorem Grows.other {root' : Nat} (h : L.Grows free free' mem mem' root) (h' : L.Tree free mem root')
    (hd : ∀ a, L.Owned mem root' a → ¬L.Owned mem root a) : ∀ a, L.Owned mem root' a → mem' a = mem a :=
  fun a ha => h.frame a (hd a ha) (h'.not_free ha)

end Layout
end Lib
end Pico
