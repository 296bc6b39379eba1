import Mathlib.Data.List.Count
import Mathlib.Logic.Function.Basic
/-!
# Refs — counted objects and the references to them

A `Pool` holds the counts of the objects that are allocated; a touch of any other object raises `uaf`.  `Balanced p refs`
says that the references are exactly those of the list `refs`: an object is allocated when the list mentions it, and its
count is the number of times it does.  The list may be taken apart as the references are (in a table, on a stack, in a
local variable); each operation moves one entry.
-/
namespace Pico
namespace Lib

/-- Reference counts by object. -/
structure Pool where
  count : Nat → Option Int
  uaf : Bool

/-- The lists of the first `n` indices, one after the other: the references in a table of tables. -/
def gather (h : Nat → List Nat) : Nat → List Nat
  | 0 => []
  | n + 1 => gather h n ++ h n

section Gather

variable {h h' : Nat → List Nat} {i n x : Nat}

theorem mem_gather : ∀ {n : Nat}, x ∈ gather h n ↔ ∃ i, i < n ∧ x ∈ h i
  | 0 => ⟨fun hx => absurd hx List.not_mem_nil, fun ⟨_, hi, _⟩ => absurd hi (Nat.not_lt_zero _)⟩
  | n + 1 => by
    rw [gather, List.mem_append, mem_gather]
    constructor
    · rintro (⟨i, hi, hx⟩ | hx)
      · exact ⟨i, Nat.lt_succ_of_lt hi, hx⟩
      · exact ⟨n, Nat.lt_succ_self n, hx⟩
    · rintro ⟨i, hi, hx⟩
      rcases Nat.lt_succ_iff_lt_or_eq.1 hi with hi | rfl
      · exact .inl ⟨i, hi, hx⟩
      · exact .inr hx

theorem gather_congr : ∀ {n : Nat}, (∀ j, j < n → h' j = h j) → gather h' n = gather h n
  | 0, _ => rfl
  | n + 1, hc => by
    rw [gather, gather, gather_congr fun j hj => hc j (Nat.lt_succ_of_lt hj), hc n (Nat.lt_succ_self n)]

/-- **One entry changes**: its old references and the new whole are its new references and the old whole. -/
theorem gather_set : ∀ {n : Nat}, i < n → (∀ j, j < n → j ≠ i → h' j = h j) →
    (h i ++ gather h' n).Perm (h' i ++ gather h n)
  | n + 1, hi, hc => by
    rw [gather, gather]
    by_cases hin : i = n
    · subst hin
      rw [gather_congr fun j hj => hc j (Nat.lt_succ_of_lt hj) (Nat.ne_of_lt hj)]
      exact (List.perm_append_comm_assoc _ _ _).trans ((List.perm_append_comm.append_left _).trans
        (List.perm_append_comm_assoc _ _ _))
    · have hlt : i < n := Nat.lt_of_le_of_ne (Nat.le_of_lt_succ hi) hin
      rw [hc n (Nat.lt_succ_self n) (Ne.symm hin), ← List.append_assoc, ← List.append_assoc]
      exact (gather_set hlt fun j hj => hc j (Nat.lt_succ_of_lt hj)).append_right _

end Gather

namespace Pool

variable {p : Pool} {x y : Nat} {refs refs' : List Nat}

def alloc (p : Pool) (x : Nat) : Pool := { p with count := Function.update p.count x (some 1) }

/-- Take a reference. -/
def inc (p : Pool) (x : Nat) : Pool :=
  match p.count x with
  | none => { p with uaf := true }
  | some c => { p with count := Function.update p.count x (some (c + 1)) }

/-- Release, whatever the count. -/
def free (p : Pool) (x : Nat) : Pool :=
  match p.count x with
  | none => { p with uaf := true }
  | some _ => { p with count := Function.update p.count x none }

/-- Drop a reference, and release with the last. -/
def dec (p : Pool) (x : Nat) : Pool :=
  match p.count x with
  | none => { p with uaf := true }
  | some c => { p with count := Function.update p.count x (if c - 1 = 0 then none else some (c - 1)) }

/-- **A reference that is taken and dropped** leaves the counts as they were. -/
theorem dec_inc {c : Int} (hc : 0 < c) (h : p.count x = some c) : (p.inc x).dec x = p := by
  have hinc : p.inc x = { p with count := Function.update p.count x (some (c + 1)) } := by
    unfold inc
    rw [h]
  have hne : ¬c + 1 - 1 = 0 := by omega
  unfold dec
  rw [hinc]
  dsimp only
  rw [Function.update_self]
  dsimp only
  rw [if_neg hne, Function.update_idem, Int.add_sub_cancel, ← h, Function.update_eq_self]

theorem dec_count_of_ne (p : Pool) (h : y ≠ x) : (p.dec x).count y = p.count y := by
  unfold dec
  split
  · rfl
  · exact Function.update_of_ne h _ _

theorem free_count_of_ne (p : Pool) (h : y ≠ x) : (p.free x).count y = p.count y := by
  unfold free
  split
  · rfl
  · exact Function.update_of_ne h _ _

theorem free_count_self (p : Pool) (x : Nat) : (p.free x).count x = none := by
  unfold free
  split
  · assumption
  · exact Function.update_self _ _ _

/-- **The references are those of the list.** -/
structure Balanced (p : Pool) (refs : List Nat) : Prop where
  fine : p.uaf = false
  count : ∀ x, p.count x = if refs.count x = 0 then none else some (refs.count x : Int)

theorem Balanced.perm (h : Balanced p refs) (hp : refs.Perm refs') : Balanced p refs' :=
  ⟨h.fine, fun x => by rw [← hp.count_eq x]; exact h.count x⟩

theorem Balanced.isSome_iff (h : Balanced p refs) : (p.count x).isSome = true ↔ x ∈ refs := by
  rw [h.count x, ← List.count_pos_iff]
  split
  · simp [*]
  · simp only [Option.isSome_some, true_iff]
    omega

theorem Balanced.eq_some_of_mem (h : Balanced p refs) (hx : x ∈ refs) : p.count x = some (refs.count x : Int) := by
  rw [h.count x, if_neg (Nat.pos_iff_ne_zero.1 (List.count_pos_iff.2 hx))]

theorem Balanced.alloc (h : Balanced p refs) (hx : p.count x = none) : Balanced (p.alloc x) (x :: refs) := by
  have h0 : refs.count x = 0 := by
    by_contra hc
    rw [h.count x, if_neg hc] at hx
    cases hx
  refine ⟨h.fine, fun y => ?_⟩
  by_cases hy : y = x
  · subst hy
    simp [Pool.alloc, h0]
  · simp only [Pool.alloc, Function.update_of_ne hy, List.count_cons_of_ne (Ne.symm hy)]
    exact h.count y

theorem Balanced.inc (h : Balanced p refs) (hx : x ∈ refs) : Balanced (p.inc x) (x :: refs) := by
  have hsome := h.eq_some_of_mem hx
  unfold Pool.inc
  rw [hsome]
  refine ⟨h.fine, fun y => ?_⟩
  by_cases hy : y = x
  · subst hy
    simp
  · simp only [Function.update_of_ne hy, List.count_cons_of_ne (Ne.symm hy)]
    exact h.count y

theorem Balanced.dec (h : Balanced p (x :: refs)) : Balanced (p.dec x) refs := by
  have hsome := h.eq_some_of_mem (List.mem_cons_self (a := x) (l := refs))
  unfold Pool.dec
  rw [hsome]
  refine ⟨h.fine, fun y => ?_⟩
  by_cases hy : y = x
  · subst hy
    simp only [Function.update_self, List.count_cons_self]
    split <;> split <;> first | rfl | omega | (congr 1; omega)
  · have hc := h.count y
    rw [List.count_cons_of_ne (Ne.symm hy)] at hc
    simp only [Function.update_of_ne hy]
    exact hc

/-- **A release is sound when the reference was the only one.** -/
theorem Balanced.free (h : Balanced p (x :: refs)) (hx : x ∉ refs) : Balanced (p.free x) refs := by
  have hsome := h.eq_some_of_mem (List.mem_cons_self (a := x) (l := refs))
  unfold Pool.free
  rw [hsome]
  refine ⟨h.fine, fun y => ?_⟩
  by_cases hy : y = x
  · subst hy
    simp [List.count_eq_zero_of_not_mem hx]
  · have hc := h.count y
    rw [List.count_cons_of_ne (Ne.symm hy)] at hc
    simp only [Function.update_of_ne hy]
    exact hc

/-- An object with one reference is mentioned once. -/
theorem Balanced.not_mem_of_one (h : Balanced p (x :: refs)) (h1 : p.count x = some 1) : x ∉ refs := by
  intro hx
  have hc := h.eq_some_of_mem (List.mem_cons_self (a := x) (l := refs))
  rw [h1, List.count_cons_self] at hc
  have := List.count_pos_iff.2 hx
  simp only [Option.some.injEq] at hc
  omega

/-- The counts say how often an object is mentioned, so no two lists of references fit one pool. -/
theorem Balanced.count_eq (h : Balanced p refs) (h' : Balanced p refs') (x : Nat) : refs.count x = refs'.count x := by
  have hc := (h.count x).symm.trans (h'.count x)
  split at hc <;> split at hc
  · omega
  · cases hc
  · cases hc
  · simp only [Option.some.injEq] at hc
    omega

theorem Balanced.incs : ∀ {xs refs : List Nat} {p : Pool}, Balanced p refs → (∀ x ∈ xs, x ∈ refs) →
    Balanced (xs.foldl Pool.inc p) (xs ++ refs)
  | [], _, _, h, _ => h
  | x :: xs, refs, p, h, hmem => by
    have h1 := h.inc (hmem x List.mem_cons_self)
    refine (Balanced.incs h1 fun y hy => List.mem_cons_of_mem x (hmem y (List.mem_cons_of_mem x hy))).perm ?_
    exact List.perm_middle

/-! ## What is held

Less than `Balanced`: what the counts are is left open. -/

/-- **The objects that are allocated are those that `R` holds of.** -/
structure Sound (p : Pool) (R : Nat → Prop) : Prop where
  fine : p.uaf = false
  held : ∀ x, (p.count x).isSome = true ↔ R x

variable {R R' : Nat → Prop} {o : Option Nat}

theorem Balanced.sound (h : Balanced p refs) : Sound p (· ∈ refs) := ⟨h.fine, fun _ => h.isSome_iff⟩

theorem Sound.congr (h : Sound p R) (hR : ∀ x, R x ↔ R' x) : Sound p R' := ⟨h.fine, fun x => (h.held x).trans (hR x)⟩

theorem sound_congr (hR : ∀ x, R x ↔ R' x) : Sound p R ↔ Sound p R' :=
  ⟨fun h => h.congr hR, fun h => h.congr fun x => (hR x).symm⟩

theorem Sound.eq_some (h : Sound p R) (hx : R x) : ∃ c, p.count x = some c := Option.isSome_iff_exists.1 ((h.held x).2 hx)

theorem Sound.alloc (h : Sound p R) (x : Nat) : Sound (p.alloc x) fun y => R y ∨ y = x := by
  refine ⟨h.fine, fun y => ?_⟩
  by_cases hy : y = x
  · subst hy
    simp [Pool.alloc]
  · simp only [Pool.alloc, Function.update_of_ne hy, hy, or_false]
    exact h.held y

theorem Sound.inc (h : Sound p R) (hx : R x) : Sound (p.inc x) R := by
  obtain ⟨c, hc⟩ := h.eq_some hx
  unfold Pool.inc
  rw [hc]
  refine ⟨h.fine, fun y => ?_⟩
  by_cases hy : y = x
  · subst hy
    simpa using hx
  · simp only [Function.update_of_ne hy]
    exact h.held y

/-- **A release is right exactly when no other reference is left.** -/
theorem Sound.free_iff (h : Sound p fun y => R y ∨ y = x) : Sound (p.free x) R ↔ ¬R x := by
  obtain ⟨c, hc⟩ := h.eq_some (.inr rfl)
  constructor
  · intro h' hx
    have hsome := (h'.held x).2 hx
    rw [free_count_self] at hsome
    cases hsome
  · intro hx
    refine ⟨?_, fun y => ?_⟩
    · unfold Pool.free
      rw [hc]
      exact h.fine
    · by_cases hy : y = x
      · subst hy
        rw [free_count_self]
        exact iff_of_false nofun hx
      · rw [free_count_of_ne p hy, h.held y, or_iff_left hy]

/-- The only reference is dropped as it is released. -/
theorem dec_eq_free (h : p.count x = some 1) : p.dec x = p.free x := by
  simp only [Pool.dec, Pool.free, h, Int.sub_self, if_true]

end Pool
end Lib
end Pico
