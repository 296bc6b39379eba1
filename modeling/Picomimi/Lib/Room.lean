import Mathlib.Data.Nat.Digits.Lemmas
/-!
# Room — characters stored one behind the other in an array of limited length

A store past the end of the array is `none`.  What a loop of stores leaves is known once its characters fit: a run of one
character (`pushN_spec`), a text (`pushAll_spec`), the digits of a number from the last one on (`pushDigits_spec`).
-/
namespace Pico
namespace Lib
namespace Room

variable {α : Type} (cap : Nat)

/-- `a[i++] = c`, on the first `i` characters of `a`. -/
def push (l : List α) (c : α) : Option (List α) := if l.length < cap then some (l ++ [c]) else none

/-- The same character `n` times. -/
def pushN (c : α) : Nat → List α → Option (List α)
  | 0, l => some l
  | n + 1, l => push cap l c >>= pushN c n

def pushAll : List α → List α → Option (List α)
  | [], l => some l
  | c :: t, l => push cap l c >>= pushAll t

/-- A character where there is room in front of the last place, which a terminator takes. -/
def emit (l : List α) (c : α) : Option (List α) := if l.length < cap - 1 then push cap l c else some l

def emitAll : List α → List α → Option (List α)
  | [], l => some l
  | c :: t, l => emit cap l c >>= emitAll t

/-- A text and its terminator in an array of their own: the text. -/
def store (nul : α) (t : List α) : Option (List α) := do
  let l ← pushAll cap t []
  let _ ← push cap l nul
  some l

/-- The digits of `num` from the last one on, at most `fuel` of them. -/
def pushDigits (digit : Nat → α) (base : Nat) : Nat → Nat → List α → Option (List α)
  | 0, _, l => some l
  | fuel + 1, num, l => if num = 0 then some l else push cap l (digit (num % base)) >>= pushDigits digit base fuel (num / base)

variable {cap}

theorem push_of_lt {l : List α} (h : l.length < cap) (c : α) : push cap l c = some (l ++ [c]) := if_pos h

theorem pushAll_spec : ∀ (t l : List α), l.length ≤ cap →
    pushAll cap t l = if l.length + t.length ≤ cap then some (l ++ t) else none
  | [], l, h => by
    rw [if_pos (by simpa using h), List.append_nil]
    rfl
  | c :: t, l, h => by
    unfold pushAll
    by_cases hlt : l.length < cap
    · rw [push_of_lt hlt, Option.bind_eq_bind, Option.bind_some, pushAll_spec t _ (by simpa using hlt),
        List.append_assoc, List.singleton_append]
      congr 1
      simp only [List.length_append, List.length_cons, List.length_nil, eq_iff_iff]
      omega
    · have hno : ¬l.length + (c :: t).length ≤ cap := by
        simp only [List.length_cons]
        omega
      rw [push, if_neg hlt, if_neg hno]
      rfl

theorem pushN_eq_pushAll (c : α) : ∀ (n : Nat) (l : List α), pushN cap c n l = pushAll cap (List.replicate n c) l
  | 0, _ => rfl
  | n + 1, l => by
    unfold pushN
    rw [List.replicate_succ, pushAll, funext (pushN_eq_pushAll c n)]

theorem pushN_spec (c : α) (n : Nat) (l : List α) (h : l.length ≤ cap) :
    pushN cap c n l = if l.length + n ≤ cap then some (l ++ List.replicate n c) else none := by
  rw [pushN_eq_pushAll, pushAll_spec _ _ h, List.length_replicate]

theorem emit_of_lt {l : List α} (h : l.length < cap - 1) (c : α) : emit cap l c = some (l ++ [c]) := by
  rw [emit, if_pos h, push_of_lt (by omega)]

/-- **What there is room for is stored**, and no more. -/
theorem emitAll_spec : ∀ (t l : List α), l.length ≤ cap - 1 → emitAll cap t l = some (l ++ t.take (cap - 1 - l.length))
  | [], l, _ => by
    rw [List.take_nil, List.append_nil]
    rfl
  | c :: t, l, h => by
    unfold emitAll
    by_cases hlt : l.length < cap - 1
    · have hlen : (l ++ [c]).length = l.length + 1 := by simp
      have hroom : cap - 1 - l.length = cap - 1 - (l ++ [c]).length + 1 := by omega
      rw [emit_of_lt hlt, Option.bind_eq_bind, Option.bind_some, emitAll_spec t _ (by omega), hroom, List.take_succ_cons,
        List.append_assoc, List.singleton_append]
    · have hfull : cap - 1 - l.length = 0 := by omega
      rw [emit, if_neg hlt, Option.bind_eq_bind, Option.bind_some, emitAll_spec t l h, hfull, List.take_zero, List.take_zero]

theorem store_spec (nul : α) (t : List α) : store cap nul t = if t.length < cap then some t else none := by
  unfold store
  rw [pushAll_spec t [] (Nat.zero_le _), List.nil_append, List.length_nil, Nat.zero_add]
  by_cases h : t.length < cap
  · rw [if_pos (Nat.le_of_lt h), if_pos h, Option.bind_eq_bind, Option.bind_some, push_of_lt h]
    rfl
  · rw [if_neg h]
    by_cases h' : t.length ≤ cap
    · rw [if_pos h', Option.bind_eq_bind, Option.bind_some, push, if_neg h]
      rfl
    · rw [if_neg h']
      rfl

/-- **The digits fit, and are all stored.** -/
theorem pushDigits_spec (digit : Nat → α) {base : Nat} (hb : 1 < base) : ∀ (fuel num : Nat) (l : List α), num < base ^ fuel →
    l.length + (Nat.digits base num).length ≤ cap →
      pushDigits cap digit base fuel num l = some (l ++ (Nat.digits base num).map digit)
  | 0, num, l, hnum, _ => by
    have h0 : num = 0 := by simpa using hnum
    rw [h0, Nat.digits_zero, List.map_nil, List.append_nil]
    rfl
  | fuel + 1, num, l, hnum, hfit => by
    unfold pushDigits
    by_cases h0 : num = 0
    · rw [if_pos h0, h0, Nat.digits_zero, List.map_nil, List.append_nil]
    · rw [if_neg h0]
      rw [Nat.digits_def' hb (Nat.pos_of_ne_zero h0)] at hfit ⊢
      simp only [List.length_cons] at hfit
      have hdiv : num / base < base ^ fuel := Nat.div_lt_of_lt_mul (by rwa [← Nat.pow_succ'])
      rw [push_of_lt (by omega), Option.bind_eq_bind, Option.bind_some, pushDigits_spec digit hb fuel _ _ hdiv,
        List.map_cons, List.append_assoc, List.singleton_append]
      simp only [List.length_append, List.length_cons, List.length_nil]
      omega

end Room
end Lib
end Pico
