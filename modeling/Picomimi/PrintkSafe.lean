import Mathlib.Data.List.TakeWhile
import Picomimi.Printk
/-!
# PrintkSafe — `vsnprintf` of the kernel stays inside its arrays where the format allows it

First `number_to_str`, then the loops that fill the buffer, then one conversion, then the format.
-/
namespace Pico
namespace Printk

open Lib

/-! ### `number_to_str` -/

theorem digits_length_le {base num : Nat} (hb : 8 ≤ base) (hnum : num < word64) : (Nat.digits base num).length ≤ 22 := by
  rw [Nat.digits_length_le_iff (by omega)]
  calc num < 8 ^ 22 := Nat.lt_trans hnum (by decide)
    _ ≤ base ^ 22 := Nat.pow_le_pow_left hb 22

theorem digit_ne_zero {upper : Bool} {i : Nat} (hi : i < 16) : digit upper i ≠ 0 := by
  have hall : ∀ (u : Bool), ∀ i < 16, digit u i ≠ 0 := by decide
  exact hall upper i hi

theorem digit_eq_zero_iff {upper : Bool} {i : Nat} (hi : i < 16) : digit upper i = chr '0' ↔ i = 0 := by
  have hall : ∀ (u : Bool), ∀ i < 16, (digit u i = chr '0' ↔ i = 0) := by decide
  exact hall upper i hi

theorem NumArg.abs_lt {a : NumArg} (h : a.num < word64) : a.abs < word64 := by
  unfold NumArg.abs
  split
  · have := (‹a.isNeg›).2.2
    unfold word64
    omega
  · exact h

theorem NumArg.abs_eq_zero_iff {a : NumArg} (h : a.num < word64) : a.abs = 0 ↔ a.num = 0 := by
  unfold NumArg.abs
  split
  · exact iff_of_false (by omega) (‹a.isNeg›).1
  · rfl

/-- The digits of a number in an array: as many as it has, and the last of them is `0` only for the number 0. -/
theorem digits_stored {cap base num : Nat} (upper : Bool) (hcap : 22 ≤ cap) (hnum : num < word64) (hb : 8 ≤ base ∧ base ≤ 16) :
    ∃ ds, (if num = 0 then Room.push cap [] (chr '0') else Room.pushDigits cap (digit upper) base 64 num []) = some ds ∧
      ds.length = digitCount base num ∧ (∀ c ∈ ds, c ≠ 0) ∧ (ds.getLast? = some (chr '0') ↔ num = 0) := by
  by_cases h0 : num = 0
  · have hcap0 : ([] : List UInt8).length < cap := Nat.lt_of_lt_of_le (by decide) hcap
    rw [if_pos h0, Room.push_of_lt hcap0, h0]
    refine ⟨[chr '0'], rfl, by simp [digitCount], List.forall_mem_singleton.2 (by decide), by simp⟩
  · have hlen := digits_length_le hb.1 hnum
    have hpos : 0 < (Nat.digits base num).length := List.length_pos_iff.2 (Nat.digits_ne_nil_iff_ne_zero.2 h0)
    have hpow : num < base ^ 64 := Nat.lt_of_lt_of_le hnum (Nat.le_trans (by decide) (Nat.pow_le_pow_left hb.1 64))
    rw [if_neg h0, Room.pushDigits_spec _ (by omega) 64 _ _ hpow (by simp only [List.length_nil]; omega), List.nil_append]
    refine ⟨_, rfl, ?_, fun c hc => ?_, ?_⟩
    · rw [List.length_map, digitCount]
      omega
    · obtain ⟨d, hd, rfl⟩ := List.mem_map.1 hc
      have := Nat.digits_lt_base (by omega) hd
      exact digit_ne_zero (by omega)
    · have hnil : Nat.digits base num ≠ [] := Nat.digits_ne_nil_iff_ne_zero.2 h0
      have hlast := Nat.getLast_digit_ne_zero base h0
      have hdig := Nat.digits_lt_base (b := base) (by omega) (List.getLast_mem hnil)
      rw [List.getLast?_map, List.getLast?_eq_getLast_of_ne_nil hnil, Option.map_some, Option.some.injEq,
        digit_eq_zero_iff (Nat.lt_of_lt_of_le hdig hb.2)]
      exact iff_of_false hlast h0

theorem digitCount_le {base num : Nat} (hb : 8 ≤ base) (hnum : num < word64) : digitCount base num ≤ 22 := by
  have := digits_length_le hb hnum
  unfold digitCount
  omega

theorem bind_pushAll {β : Type} {cap : Nat} {t l : List UInt8} (h : l.length ≤ cap) (f : List UInt8 → Option β) :
    (Room.pushAll cap t l).bind f = if l.length + t.length ≤ cap then f (l ++ t) else none := by
  rw [Room.pushAll_spec t l h]
  split <;> rfl

theorem bind_pushN {β : Type} {cap n : Nat} {c : UInt8} {l : List UInt8} (h : l.length ≤ cap) (f : List UInt8 → Option β) :
    (Room.pushN cap c n l).bind f = if l.length + n ≤ cap then f (l ++ List.replicate n c) else none := by
  rw [Room.pushN_spec c n l h]
  split <;> rfl

theorem prefixChars_ne_zero {flags : Flags} {base : Nat} {tmp : List UInt8} : ∀ c ∈ prefixChars flags base tmp, c ≠ 0 := by
  have h0 : ∀ c ∈ [chr '0'], c ≠ 0 := List.forall_mem_singleton.2 (by decide)
  unfold prefixChars
  split
  · split
    · refine List.forall_mem_cons.2 ⟨?_, h0⟩
      split <;> decide
    · split
      · exact h0
      · exact List.forall_mem_nil _
  · exact List.forall_mem_nil _

theorem signChars_ne_zero {flags : Flags} {negative : Bool} : ∀ c ∈ signChars flags negative, c ≠ 0 := by
  unfold signChars
  split
  · exact List.forall_mem_singleton.2 (by decide)
  · split
    · exact List.forall_mem_singleton.2 (by decide)
    · split
      · exact List.forall_mem_singleton.2 (by decide)
      · exact List.forall_mem_nil _

theorem length_signChars (flags : Flags) (negative : Bool) :
    (signChars flags negative).length = if negative ∨ flags.plus ∨ flags.space then 1 else 0 := by
  unfold signChars
  cases negative <;> cases flags.plus <;> cases flags.space <;> rfl

theorem length_prefixChars {a : NumArg} {ds : List UInt8} {p : Int} (hlast : ds.getLast? = some (chr '0') ↔ a.num = 0)
    (hlen : ds.length = digitCount a.base a.abs) :
    (prefixChars a.flags a.base (ds ++ List.replicate (p - ds.length).toNat (chr '0'))).length =
      if a.flags.prefixed then
        if a.base = 16 then 2 else if a.base = 8 ∧ a.num ≠ 0 ∧ p ≤ digitCount a.base a.abs then 1 else 0
      else 0 := by
  have htop : (ds ++ List.replicate (p - ds.length).toNat (chr '0')).getLast? ≠ some (chr '0') ↔
      a.num ≠ 0 ∧ p ≤ digitCount a.base a.abs := by
    rw [← hlen]
    by_cases hp : p ≤ ds.length
    · have h0 : (p - ds.length).toNat = 0 := by omega
      rw [h0, List.replicate_zero, List.append_nil, ne_eq, hlast]
      exact (and_iff_left hp).symm
    · obtain ⟨n, hn⟩ : ∃ n, (p - ds.length).toNat = n + 1 := ⟨(p - ds.length).toNat - 1, by omega⟩
      rw [hn, List.replicate_succ', ← List.append_assoc, List.getLast?_concat]
      exact iff_of_false (fun h => h rfl) fun h => hp h.2
  unfold prefixChars
  simp only [htop]
  split
  · split
    · rfl
    · split <;> rfl
  · rfl

theorem pad_ne_zero {z : Bool} {n : Nat} : ∀ c ∈ List.replicate n (if z then chr '0' else chr ' '), c ≠ 0 := fun c hc => by
  rw [List.eq_of_mem_replicate hc]
  cases z <;> decide

/-- **What `tmp` gets**, where it fits. -/
theorem numberTmp_spec {a : NumArg} (hnum : a.num < word64) (hb : 8 ≤ a.base ∧ a.base ≤ 16) (w p : Int) :
    ∃ tmp, numberTmp a.num a.base w p a.flags =
        (if a.len p ≤ 66 ∧ (a.flags.left = true ∨ w ≤ 66) then some tmp else none) ∧
      tmp.length = (if a.flags.left then a.len p else max (a.len p) w.toNat) ∧ ∀ c ∈ tmp, c ≠ 0 := by
  obtain ⟨ds, hds, hlen, hne, hlast⟩ := digits_stored a.flags.uppercase (by decide : 22 ≤ 66) (NumArg.abs_lt hnum) hb
  simp only [NumArg.abs_eq_zero_iff hnum] at hds hlast
  have hcount : ds.length ≤ 22 := hlen ▸ digitCount_le hb.1 (NumArg.abs_lt hnum)
  have habs : (if decide (a.num ≠ 0 ∧ a.flags.signed = true ∧ 9223372036854775808 ≤ a.num) = true
      then word64 - a.num else a.num) = a.abs := by simp [NumArg.abs, NumArg.isNeg]
  have hsign' : signChars a.flags (decide (a.num ≠ 0 ∧ a.flags.signed = true ∧ 9223372036854775808 ≤ a.num)) =
      signChars a.flags (decide a.isNeg) := rfl
  unfold numberTmp
  dsimp only
  rw [habs, hds, hsign', Option.bind_eq_bind, Option.bind_some]
  -- the pieces in front of the fill
  have hP := length_prefixChars (p := p) hlast hlen
  have hS := length_signChars a.flags (decide a.isNeg)
  have hsign0 : ∀ c ∈ signChars a.flags (decide a.isNeg), c ≠ 0 := signChars_ne_zero
  generalize hz : (p - ds.length).toNat = zeros at hP ⊢
  generalize signChars a.flags (decide a.isNeg) = sign at hS hsign0 ⊢
  have hpre0 : ∀ c ∈ prefixChars a.flags a.base (ds ++ List.replicate zeros (chr '0')), c ≠ 0 := prefixChars_ne_zero
  have hparts : a.len p =
      ds.length + zeros + (prefixChars a.flags a.base (ds ++ List.replicate zeros (chr '0'))).length + sign.length := by
    have hmax : max ds.length p.toNat = ds.length + zeros := by omega
    rw [NumArg.len, hP, hS, ← hlen, hmax]
    simp
  rw [bind_pushN (by omega)]
  generalize prefixChars a.flags a.base (ds ++ List.replicate zeros (chr '0')) = pre at hpre0 hparts ⊢
  generalize ht : ds ++ List.replicate zeros (chr '0') ++ pre ++ sign = t
  have htlen : t.length = a.len p := by
    rw [← ht, hparts]
    simp only [List.length_append, List.length_replicate]
  have ht0 : ∀ c ∈ t, c ≠ 0 := by
    have h0 : ∀ c ∈ List.replicate zeros (chr '0'), c ≠ 0 := fun c hc => by
      rw [List.eq_of_mem_replicate hc]
      decide
    rw [← ht]
    simp only [List.mem_append]
    rintro c (((hc | hc) | hc) | hc)
    exacts [hne c hc, h0 c hc, hpre0 c hc, hsign0 c hc]
  refine ⟨t ++ List.replicate (if a.flags.left then 0 else (w - t.length).toNat) (if a.flags.zeropad then chr '0' else chr ' '),
    ?_, ?_, ?_⟩
  · have hlen1 : (ds ++ List.replicate zeros (chr '0')).length = ds.length + zeros := by simp
    have hlen2 : (ds ++ List.replicate zeros (chr '0') ++ pre).length = ds.length + zeros + pre.length := by
      simp [Nat.add_assoc]
    by_cases h66 : a.len p ≤ 66
    · rw [if_pos (by omega), bind_pushAll (by omega), if_pos (by omega), bind_pushAll (by omega), if_pos (by omega), ht,
        Room.pushN_spec _ _ _ (by omega)]
      refine if_congr ?_ rfl rfl
      cases a.flags.left with
      | true => simp [htlen, h66]
      | false =>
        simp only [Bool.false_eq_true, if_false, false_or]
        omega
    · -- one of the pieces does not fit
      have hno : ¬(a.len p ≤ 66 ∧ (a.flags.left = true ∨ w ≤ 66)) := fun h => h66 h.1
      rw [if_neg hno]
      by_cases h1 : ds.length + zeros ≤ 66
      · rw [if_pos h1, bind_pushAll (by omega)]
        by_cases h2 : ds.length + zeros + pre.length ≤ 66
        · rw [if_pos (by omega), bind_pushAll (by omega), if_neg (by omega)]
        · rw [if_neg (by omega)]
      · rw [if_neg h1]
  · rw [List.length_append, List.length_replicate, htlen]
    split <;> omega
  · intro c hc
    rcases List.mem_append.1 hc with hc | hc
    · exact ht0 c hc
    · exact pad_ne_zero c hc

/-- **`number_to_str` stays inside its arrays exactly when the number fits**, and then the text has the length it should. -/
theorem numberToStr_spec {a : NumArg} (hnum : a.num < word64) (hb : 8 ≤ a.base ∧ a.base ≤ 16) (w p : Int) :
    ∃ text, numberToStr a.num a.base w p a.flags = (if a.Fits w p then some text else none) ∧
      text.length = max (a.len p) w.toNat ∧ ∀ c ∈ text, c ≠ 0 := by
  obtain ⟨tmp, htmp, hlen, hne⟩ := numberTmp_spec hnum hb w p
  refine ⟨tmp.reverse ++ List.replicate (if a.flags.left then (w - tmp.length).toNat else 0) (chr ' '), ?_, ?_, fun c hc => ?_⟩
  · unfold numberToStr
    rw [htmp, Option.bind_eq_bind]
    by_cases h66 : a.len p ≤ 66 ∧ (a.flags.left = true ∨ w ≤ 66)
    · have htmp66 : tmp.length ≤ 66 := by
        rw [hlen]
        split
        · exact h66.1
        · have := h66.2.resolve_left (by assumption)
          omega
      have hrev : (tmp.reverse).length = tmp.length := List.length_reverse
      rw [if_pos h66, Option.bind_some, bind_pushAll (Nat.zero_le _),
        if_pos (by simp only [List.length_nil]; omega), List.nil_append, bind_pushN (by omega), hrev]
      cases hleft : a.flags.left with
      | true =>
        simp only [hleft, if_true] at hlen ⊢
        rw [hlen]
        by_cases hw : w ≤ 67
        · have hfits : a.Fits w p := ⟨h66.1, by rw [hleft]; exact hw⟩
          rw [if_pos (by omega), if_pos hfits, Room.push_of_lt, Option.bind_some]
          rw [List.length_append, List.length_replicate, hrev]
          omega
        · have hno : ¬a.Fits w p := fun h => hw (by simpa [hleft] using h.2)
          rw [if_neg hno]
          by_cases h68 : a.len p + (w - (a.len p : Int)).toNat ≤ 68
          · rw [if_pos h68, Room.push, if_neg]
            · rfl
            · rw [List.length_append, List.length_replicate, hrev]
              omega
          · rw [if_neg h68]
      | false =>
        have hfits : a.Fits w p := ⟨h66.1, by simpa [hleft] using h66.2⟩
        simp only [Bool.false_eq_true, if_false]
        rw [if_pos (by omega), if_pos hfits, Room.push_of_lt, Option.bind_some]
        rw [List.length_append, List.length_replicate, hrev]
        omega
    · have hno : ¬a.Fits w p := fun h => h66 ⟨h.1, by
        have := h.2
        by_cases hleft : a.flags.left = true
        · exact .inl hleft
        · exact .inr (by rwa [if_neg hleft] at this)⟩
      rw [if_neg h66, if_neg hno]
      rfl
  · rw [List.length_append, List.length_reverse, List.length_replicate, hlen]
    split <;> omega
  · rcases List.mem_append.1 hc with hc | hc
    · exact hne c (List.mem_reverse.1 hc)
    · rw [List.eq_of_mem_replicate hc]
      decide

/-! ### The loops that fill the buffer -/

theorem cInt_range (x : Int) : -2147483648 ≤ cInt x ∧ cInt x < 2147483648 := by
  unfold cInt
  omega

theorem cInt_eq {x : Int} (h : -2147483648 ≤ x) (h' : x < 2147483648) : cInt x = x := by
  unfold cInt
  omega

/-- A text, as far as there is room. -/
theorem emitAll_length {size : Nat} (text : List UInt8) {out : List UInt8} (hout : out.length ≤ size - 1) :
    ∃ out', Room.emitAll size text out = some out' ∧ out'.length = min (size - 1) (out.length + text.length) := by
  refine ⟨_, Room.emitAll_spec text out hout, ?_⟩
  rw [List.length_append, List.length_take]
  omega

theorem emit_length {size : Nat} {out : List UInt8} (hout : out.length ≤ size - 1) (c : UInt8) :
    ∃ out', Room.emit size out c = some out' ∧ out'.length = min (size - 1) (out.length + 1) := by
  obtain ⟨out', h', hlen⟩ := emitAll_length [c] hout
  refine ⟨out', ?_, hlen⟩
  rw [← h', Room.emitAll]
  cases Room.emit size out c <;> rfl

/-- **`while (--width > 0 && str < end)`** adds a space for each of `width - 1`, as far as there is room. -/
theorem padDown_spec {size : Nat} : ∀ (n : Nat) (w : Int) (out : List UInt8), out.length + n = size - 1 →
    ∃ w' out', padDown size n w out = some (w', out') ∧ out'.length = min (size - 1) (out.length + (cInt (w - 1)).toNat) ∧
      ((cInt (w - 1)).toNat ≤ n → w' = min (cInt (w - 1)) 0)
  | 0, w, out, hn => ⟨_, _, rfl, by omega, fun h => by omega⟩
  | n + 1, w, out, hn => by
    unfold padDown
    have hrange := cInt_range (w - 1)
    generalize cInt (w - 1) = v at hrange ⊢
    by_cases hv : 0 < v
    · have hv' : cInt (v - 1) = v - 1 := cInt_eq (by omega) (by omega)
      have hlen : (out ++ [chr ' ']).length = out.length + 1 := by simp
      have hroom : (out ++ [chr ' ']).length + n = size - 1 := by omega
      obtain ⟨w', out', heq, hlen', hw'⟩ := padDown_spec n v (out ++ [chr ' ']) hroom
      rw [hv'] at hlen' hw'
      rw [if_pos hv, Room.push_of_lt (by omega)]
      exact ⟨w', out', heq, by omega, fun h => by have := hw' (by omega); omega⟩
    · rw [if_neg hv]
      exact ⟨_, _, rfl, by omega, fun _ => by omega⟩

/-- **`while (len < width-- && str < end)`** fills up to the width, as far as there is room. -/
theorem padLess_spec {size : Nat} (len : Nat) : ∀ (n : Nat) (w : Int) (out : List UInt8), out.length + n = size - 1 →
    -2147483648 ≤ w → w < 2147483648 →
    ∃ w' out', padLess size len n w out = some (w', out') ∧ out'.length = min (size - 1) (out.length + (w - len).toNat) ∧
      ((w - len).toNat ≤ n → w' = cInt (min w len - 1))
  | 0, w, out, hn, _, _ => ⟨_, _, rfl, by omega, fun h => by congr 2; omega⟩
  | n + 1, w, out, hn, hlo, hhi => by
    unfold padLess
    by_cases hv : (len : Int) < w
    · have hw : cInt (w - 1) = w - 1 := cInt_eq (by omega) (by omega)
      have hlen : (out ++ [chr ' ']).length = out.length + 1 := by simp
      have hroom : (out ++ [chr ' ']).length + n = size - 1 := by omega
      obtain ⟨w', out', heq, hlen', hw'⟩ := padLess_spec len n (w - 1) (out ++ [chr ' ']) hroom (by omega) (by omega)
      rw [if_pos hv, Room.push_of_lt (by omega), hw]
      refine ⟨w', out', heq, by omega, fun h => ?_⟩
      rw [hw' (by omega)]
      congr 2
      omega
    · rw [if_neg hv]
      refine ⟨_, _, rfl, by omega, fun _ => ?_⟩
      congr 2
      omega

/-! ### A conversion -/

/-- `case 'c':` gives the buffer as many characters as it should, as far as there is room. -/
theorem convertChar_spec {size : Nat} {sp : Spec} {out : List UInt8} (hc : deref sp.fmt = chr 'c') (hout : out.length ≤ size - 1) :
    ∃ out', convertChar size sp out = some out' ∧ out'.length = min (size - 1) (out.length + convLen sp (deref sp.fmt)) := by
  rw [convLen, if_pos hc]
  unfold convertChar
  have hrange := cInt_range (sp.width - 1)
  by_cases hleft : sp.flags.left = true
  · obtain ⟨out₂, h₂, hlen₂⟩ := emit_length hout sp.ap.next.1.toUInt8
    have hroom : out₂.length + (size - 1 - out₂.length) = size - 1 := by omega
    obtain ⟨w₃, out₃, h₃, hlen₃, -⟩ := padDown_spec _ sp.width out₂ hroom
    refine ⟨out₃, ?_, ?_⟩
    · rw [if_pos hleft, Option.bind_eq_bind, Option.bind_some]
      dsimp only
      rw [h₂, Option.bind_eq_bind, Option.bind_some, h₃]
      rfl
    · rw [if_pos hleft]
      omega
  · have hroom₁ : out.length + (size - 1 - out.length) = size - 1 := by omega
    obtain ⟨w₁, out₁, h₁, hlen₁, hw₁⟩ := padDown_spec _ sp.width out hroom₁
    have hout₁ : out₁.length ≤ size - 1 := by omega
    obtain ⟨out₂, h₂, hlen₂⟩ := emit_length hout₁ sp.ap.next.1.toUInt8
    have hroom : out₂.length + (size - 1 - out₂.length) = size - 1 := by omega
    obtain ⟨w₃, out₃, h₃, hlen₃, -⟩ := padDown_spec _ w₁ out₂ hroom
    refine ⟨out₃, ?_, ?_⟩
    · rw [if_neg hleft, h₁, Option.bind_eq_bind, Option.bind_some]
      dsimp only
      rw [h₂, Option.bind_eq_bind, Option.bind_some, h₃]
      rfl
    · rw [if_neg hleft]
      by_cases hcut : (cInt (sp.width - 1)).toNat ≤ size - 1 - out.length
      · have hw := hw₁ hcut
        by_cases hpos : 0 < cInt (sp.width - 1)
        · have h0 : w₁ = 0 := by omega
          have hstop : cInt (w₁ - 1) = -1 := by rw [h0]; decide
          rw [if_pos hpos]
          omega
        · have h0 : w₁ = cInt (sp.width - 1) := by omega
          rw [h0] at hlen₃
          rw [if_neg hpos]
          omega
      · -- the buffer is full before the character comes
        rw [if_pos (by omega)]
        omega

/-- `case 's':` likewise. -/
theorem convertStr_spec {size : Nat} {sp : Spec} {out : List UInt8} (hc : deref sp.fmt = chr 's') (hout : out.length ≤ size - 1)
    (hlo : -2147483648 ≤ sp.width) (hhi : sp.width < 2147483648) :
    ∃ out', convertStr size sp out = some out' ∧ out'.length = min (size - 1) (out.length + convLen sp (deref sp.fmt)) := by
  have hcs : deref sp.fmt ≠ chr 'c' := by rw [hc]; decide
  rw [convLen, if_neg hcs, if_pos hc]
  unfold convertStr
  dsimp only
  generalize counted (strArg sp) sp.precision = s
  by_cases hleft : sp.flags.left = true
  · obtain ⟨out₂, h₂, hlen₂⟩ := emitAll_length s hout
    have hroom : out₂.length + (size - 1 - out₂.length) = size - 1 := by omega
    obtain ⟨w₃, out₃, h₃, hlen₃, -⟩ := padLess_spec s.length _ sp.width out₂ hroom hlo hhi
    refine ⟨out₃, ?_, ?_⟩
    · rw [if_pos hleft, Option.bind_eq_bind, Option.bind_some]
      dsimp only
      rw [h₂, Option.bind_eq_bind, Option.bind_some, h₃]
      rfl
    · rw [if_pos (.inl hleft)]
      omega
  · have hroom₁ : out.length + (size - 1 - out.length) = size - 1 := by omega
    obtain ⟨w₁, out₁, h₁, hlen₁, hw₁⟩ := padLess_spec s.length _ sp.width out hroom₁ hlo hhi
    have hout₁ : out₁.length ≤ size - 1 := by omega
    obtain ⟨out₂, h₂, hlen₂⟩ := emitAll_length s hout₁
    have hroom : out₂.length + (size - 1 - out₂.length) = size - 1 := by omega
    suffices hpad : ∃ w₃ out₃, padLess size s.length (size - 1 - out₂.length) w₁ out₂ = some (w₃, out₃) ∧
        out₃.length = min (size - 1) (out.length +
          if sp.flags.left = true ∨ (s.length : Int) < sp.width then max s.length sp.width.toNat
          else s.length + (cInt (sp.width - 1) - s.length).toNat) by
      obtain ⟨w₃, out₃, h₃, hlen₃⟩ := hpad
      refine ⟨out₃, ?_, hlen₃⟩
      rw [if_neg hleft, h₁, Option.bind_eq_bind, Option.bind_some]
      dsimp only
      rw [h₂, Option.bind_eq_bind, Option.bind_some, h₃]
      rfl
    by_cases hcut : (sp.width - s.length).toNat ≤ size - 1 - out.length
    · have hw := hw₁ hcut
      have hrange := cInt_range (min sp.width s.length - 1)
      rw [← hw] at hrange
      obtain ⟨w₃, out₃, h₃, hlen₃, -⟩ := padLess_spec s.length _ w₁ out₂ hroom hrange.1 hrange.2
      refine ⟨w₃, out₃, h₃, ?_⟩
      by_cases hlt : (s.length : Int) < sp.width
      · have hmin : cInt (min sp.width s.length - 1) = s.length - 1 := by
          rw [cInt_eq (by omega) (by omega)]
          omega
        rw [if_pos (.inr hlt)]
        omega
      · have hmin : min sp.width s.length = sp.width := by omega
        rw [hmin] at hw
        rw [if_neg (not_or.2 ⟨hleft, hlt⟩)]
        omega
    · -- the buffer is full before the text comes
      have hfull : size - 1 - out₂.length = 0 := by omega
      rw [hfull]
      refine ⟨_, _, rfl, ?_⟩
      rw [if_pos (.inr (by omega))]
      omega

theorem numArg_bounds {sp : Spec} {c : UInt8} {a : NumArg} (h : numArg sp c = some a) :
    a.num < word64 ∧ 8 ≤ a.base ∧ a.base ≤ 16 := by
  have hw : sp.ap.next.1.toNat < word64 := sp.ap.next.1.toNat_lt
  have hword : word32 < word64 := by decide
  have hunsigned : (if 3 ≤ sp.length then sp.ap.next.1.toNat else sp.ap.next.1.toNat % word32) < word64 := by
    split
    · exact hw
    · exact Nat.lt_trans (Nat.mod_lt _ (by decide)) hword
  have hsigned : (if 3 ≤ sp.length then sp.ap.next.1.toNat else (asInt sp.ap.next.1 % word64).toNat) < word64 := by
    split
    · exact hw
    · have hpos : (0 : Int) < word64 := by decide
      have hlt := Int.emod_lt_of_pos (asInt sp.ap.next.1) hpos
      have hge := Int.emod_nonneg (asInt sp.ap.next.1) hpos.ne'
      omega
  unfold numArg at h
  dsimp only at h
  generalize (if 3 ≤ sp.length then sp.ap.next.1.toNat else sp.ap.next.1.toNat % word32) = u at h hunsigned
  generalize (if 3 ≤ sp.length then sp.ap.next.1.toNat else (asInt sp.ap.next.1 % word64).toNat) = v at h hsigned
  have h8 : 8 ≤ 8 ∧ 8 ≤ 16 := by decide
  have h10 : 8 ≤ 10 ∧ 10 ≤ 16 := by decide
  have h16 : 8 ≤ 16 ∧ 16 ≤ 16 := by decide
  -- one case for each letter that prints a number
  split at h
  · cases h
    exact ⟨hw, h16⟩
  · split at h
    · cases h
      exact ⟨hsigned, h10⟩
    · split at h
      · cases h
        exact ⟨hunsigned, h10⟩
      · split at h
        · cases h
          exact ⟨hunsigned, h16⟩
        · split at h
          · cases h
            exact ⟨hunsigned, h16⟩
          · split at h
            · cases h
              exact ⟨hunsigned, h8⟩
            · cases h

theorem numArg_chr_c (sp : Spec) : numArg sp (chr 'c') = none := rfl

theorem numArg_chr_s (sp : Spec) : numArg sp (chr 's') = none := rfl

theorem takeWhile_ne_zero {text : List UInt8} (h : ∀ c ∈ text, c ≠ 0) : text.takeWhile (· ≠ 0) = text :=
  List.takeWhile_eq_self_iff.2 fun c hc => decide_eq_true (h c hc)

/-- **A conversion whose number fits** gives the buffer as many characters as it should, as far as there is room. -/
theorem convert_of_fits {size : Nat} {sp : Spec} {out : List UInt8} (hout : out.length ≤ size - 1)
    (hlo : -2147483648 ≤ sp.width) (hhi : sp.width < 2147483648)
    (hnum : ∀ a, numArg sp (deref sp.fmt) = some a → a.Fits sp.width sp.precision) :
    ∃ out', convert size sp out = some (out', convRest sp (deref sp.fmt)) ∧
      out'.length = min (size - 1) (out.length + convLen sp (deref sp.fmt)) := by
  unfold convert convRest
  dsimp only
  by_cases hc : deref sp.fmt = chr 'c'
  · obtain ⟨out', h', hlen⟩ := convertChar_spec hc hout
    refine ⟨out', ?_, hlen⟩
    rw [if_pos hc, if_pos (.inl hc), h']
    rfl
  · by_cases hs : deref sp.fmt = chr 's'
    · obtain ⟨out', h', hlen⟩ := convertStr_spec hs hout hlo hhi
      refine ⟨out', ?_, hlen⟩
      rw [if_neg hc, if_pos hs, if_pos (.inr (.inl hs)), h']
      rfl
    · rw [if_neg hc, if_neg hs, convLen, if_neg hc, if_neg hs]
      cases ha : numArg sp (deref sp.fmt) with
      | some a =>
        obtain ⟨ha64, hbase⟩ := numArg_bounds ha
        obtain ⟨text, htext, hlen, hne⟩ := numberToStr_spec ha64 hbase sp.width sp.precision
        obtain ⟨out', h', hlen'⟩ := emitAll_length text hout
        refine ⟨out', ?_, by rw [hlen', hlen]⟩
        dsimp only
        rw [htext, if_pos (hnum a ha), Option.bind_eq_bind, Option.bind_some, takeWhile_ne_zero hne, h',
          if_pos (.inr (.inr rfl))]
        rfl
      | none =>
        have hrest : ¬(deref sp.fmt = chr 'c' ∨ deref sp.fmt = chr 's' ∨ (none : Option NumArg).isSome = true) := by
          simp [hc, hs]
        dsimp only
        rw [if_neg hrest]
        obtain ⟨mid, hmid, hlen⟩ := emit_length hout (chr '%')
        by_cases hpct : deref sp.fmt = chr '%'
        · refine ⟨mid, ?_, ?_⟩
          · rw [if_pos hpct, hmid]
            rfl
          · rw [if_pos (.inl hpct), hlen]
        · by_cases h0 : deref sp.fmt = 0
          · refine ⟨mid, ?_, ?_⟩
            · rw [if_neg hpct, hmid, Option.bind_eq_bind, Option.bind_some, if_neg (by simpa using h0)]
              rfl
            · rw [if_pos (.inr h0), hlen]
          · have hmid' : mid.length ≤ size - 1 := by omega
            obtain ⟨out', h', hlen'⟩ := emit_length hmid' (deref sp.fmt)
            refine ⟨out', ?_, ?_⟩
            · rw [if_neg hpct, hmid, Option.bind_eq_bind, Option.bind_some, if_pos h0, h']
              rfl
            · rw [if_neg (not_or.2 ⟨hpct, h0⟩), hlen', hlen]
              omega

/-- A conversion whose number does not fit writes outside an array. -/
theorem convert_of_not_fits {size : Nat} {sp : Spec} {out : List UInt8} {a : NumArg} (ha : numArg sp (deref sp.fmt) = some a)
    (hnum : ¬a.Fits sp.width sp.precision) : convert size sp out = none := by
  have hc : deref sp.fmt ≠ chr 'c' := fun h => by
    rw [h, numArg_chr_c] at ha
    cases ha
  have hs : deref sp.fmt ≠ chr 's' := fun h => by
    rw [h, numArg_chr_s] at ha
    cases ha
  obtain ⟨ha64, hbase⟩ := numArg_bounds ha
  obtain ⟨text, htext, -, -⟩ := numberToStr_spec ha64 hbase sp.width sp.precision
  unfold convert
  dsimp only
  rw [if_neg hc, if_neg hs, ha]
  dsimp only
  rw [htext, if_neg hnum]
  rfl

/-! ### The format -/

theorem parseFlags_length : ∀ (fmt : List UInt8) (flags : Flags), (parseFlags fmt flags).2.length ≤ fmt.length
  | [], _ => Nat.le_refl _
  | c :: fmt, flags => by
    have ih := parseFlags_length fmt
    unfold parseFlags
    rw [List.length_cons]
    split_ifs
    iterate 5 exact Nat.le_succ_of_le (ih _)
    exact Nat.le_refl _

theorem parseDigits_length : ∀ (fmt : List UInt8) (n : Int), (parseDigits fmt n).2.length ≤ fmt.length
  | [], _ => Nat.le_refl _
  | c :: fmt, n => by
    unfold parseDigits
    rw [List.length_cons]
    split
    · exact Nat.le_succ_of_le (parseDigits_length fmt _)
    · exact Nat.le_refl _

/-- A width is an `int`. -/
theorem parseDigits_range : ∀ (fmt : List UInt8) (n : Int), -2147483648 ≤ n → n < 2147483648 →
    -2147483648 ≤ (parseDigits fmt n).1 ∧ (parseDigits fmt n).1 < 2147483648
  | [], _, hlo, hhi => ⟨hlo, hhi⟩
  | c :: fmt, n, hlo, hhi => by
    unfold parseDigits
    split
    · have hrange := cInt_range (n * 10 + (c.toNat - 48))
      exact parseDigits_range fmt _ hrange.1 hrange.2
    · exact ⟨hlo, hhi⟩

theorem parseWidth_length (flags : Flags) (fmt : List UInt8) (ap : VaList) : (parseWidth flags fmt ap).fmt.length ≤ fmt.length := by
  have hd := parseDigits_length fmt 0
  have ht := fmt.length_tail
  unfold parseWidth
  dsimp only
  split
  · split
    · dsimp only
      omega
    · dsimp only
      omega
  · exact hd

theorem parseWidth_range (flags : Flags) (fmt : List UInt8) (ap : VaList) :
    -2147483648 ≤ (parseWidth flags fmt ap).width ∧ (parseWidth flags fmt ap).width < 2147483648 := by
  unfold parseWidth
  dsimp only
  split
  · split
    · exact cInt_range _
    · exact cInt_range _
  · exact parseDigits_range fmt 0 (by decide) (by decide)

theorem parsePrecision_length (sp : Spec) : (parsePrecision sp).fmt.length ≤ sp.fmt.length := by
  have hd := parseDigits_length sp.fmt.tail 0
  have ht := sp.fmt.length_tail
  have htt := sp.fmt.tail.length_tail
  unfold parsePrecision
  dsimp only
  split
  · split
    · dsimp only
      omega
    · dsimp only
      omega
  · exact Nat.le_refl _

theorem parsePrecision_width (sp : Spec) : (parsePrecision sp).width = sp.width := by
  unfold parsePrecision
  dsimp only
  split
  · split <;> rfl
  · rfl

theorem parseLength_length (sp : Spec) : (parseLength sp).fmt.length ≤ sp.fmt.length := by
  have ht := sp.fmt.length_tail
  have htt := sp.fmt.tail.length_tail
  unfold parseLength
  split_ifs
  iterate 5 (dsimp only; omega)
  exact Nat.le_refl _

theorem parseLength_width (sp : Spec) : (parseLength sp).width = sp.width := by
  unfold parseLength
  split_ifs <;> rfl

theorem parseSpec_length (fmt : List UInt8) (ap : VaList) : (parseSpec fmt ap).fmt.length ≤ fmt.length := by
  unfold parseSpec
  dsimp only
  exact Nat.le_trans (parseLength_length _) (Nat.le_trans (parsePrecision_length _)
    (Nat.le_trans (parseWidth_length _ _ _) (parseFlags_length _ _)))

theorem parseSpec_range (fmt : List UInt8) (ap : VaList) :
    -2147483648 ≤ (parseSpec fmt ap).width ∧ (parseSpec fmt ap).width < 2147483648 := by
  unfold parseSpec
  dsimp only
  rw [parseLength_width, parsePrecision_width]
  exact parseWidth_range _ _ _

/-! ### The whole format -/

variable {size : Nat}

theorem vsnprintfLoop_full {fuel : Nat} {fmt : List UInt8} {ap : VaList} {out : List UInt8} (hfuel : fmt.length ≤ fuel)
    (hout : ¬out.length < size - 1) : vsnprintfLoop size fuel fmt ap out = some out := by
  cases fmt with
  | nil => cases fuel <;> rfl
  | cons c fmt =>
    cases fuel with
    | zero => cases hfuel
    | succ fuel =>
      unfold vsnprintfLoop
      rw [if_neg hout]

theorem vsnprintfLoop_literal {fuel : Nat} {c : UInt8} {fmt : List UInt8} {ap : VaList} {out : List UInt8} (hc : c ≠ chr '%')
    (hout : out.length < size - 1) :
    vsnprintfLoop size (fuel + 1) (c :: fmt) ap out = vsnprintfLoop size fuel fmt ap (out ++ [c]) := by
  rw [vsnprintfLoop, if_pos hout, if_pos hc, Room.push_of_lt (by omega)]
  rfl

/-- A conversion that is carried out, with its letter in the format. -/
theorem vsnprintfLoop_conversion {fuel : Nat} {fmt : List UInt8} {ap ap' : VaList} {out out' : List UInt8} {c : UInt8}
    {rest : List UInt8} (hout : out.length < size - 1) (hconv : convert size (parseSpec fmt ap) out = some (out', ap'))
    (hfmt : (parseSpec fmt ap).fmt = c :: rest) :
    vsnprintfLoop size (fuel + 1) (chr '%' :: fmt) ap out = vsnprintfLoop size fuel rest ap' out' := by
  have hpct : ¬chr '%' ≠ chr '%' := not_not.2 rfl
  rw [vsnprintfLoop, if_pos hout, if_neg hpct]
  dsimp only
  rw [hconv, hfmt]
  rfl

/-- A conversion that the loop survives was carried out, and had its letter. -/
theorem conversion_of_vsnprintfLoop {fuel : Nat} {fmt : List UInt8} {ap : VaList} {out : List UInt8} (hout : out.length < size - 1)
    (h : (vsnprintfLoop size (fuel + 1) (chr '%' :: fmt) ap out).isSome) :
    (convert size (parseSpec fmt ap) out).isSome ∧ (parseSpec fmt ap).fmt ≠ [] := by
  have hpct : ¬chr '%' ≠ chr '%' := not_not.2 rfl
  rw [vsnprintfLoop, if_pos hout, if_neg hpct] at h
  dsimp only at h
  cases hconv : convert size (parseSpec fmt ap) out with
  | none =>
    rw [hconv] at h
    cases h
  | some r =>
    refine ⟨rfl, fun hnil => ?_⟩
    rw [hconv, hnil] at h
    cases h

/-- **A format that fits is printed**, and leaves the byte for the NUL. -/
theorem vsnprintfLoop_of_fits {room : Nat} {fmt : List UInt8} {ap : VaList} (h : Fits room fmt ap) :
    ∀ (fuel : Nat) (out : List UInt8), fmt.length ≤ fuel → out.length + room = size - 1 →
      ∃ out', vsnprintfLoop size fuel fmt ap out = some out' ∧ out'.length ≤ size - 1 := by
  induction h with
  | nul =>
    intro fuel out _ hroom
    exact ⟨out, by cases fuel <;> rfl, by omega⟩
  | full =>
    intro fuel out hfuel hroom
    exact ⟨out, vsnprintfLoop_full hfuel (by omega), by omega⟩
  | literal hc _ ih =>
    intro fuel out hfuel hroom
    obtain ⟨fuel, rfl⟩ : ∃ n, fuel = n + 1 := ⟨fuel - 1, by rw [List.length_cons] at hfuel; omega⟩
    rw [vsnprintfLoop_literal hc (by omega)]
    refine ih fuel _ (Nat.le_of_succ_le_succ hfuel) ?_
    rw [List.length_append, List.length_singleton]
    omega
  | @conversion room fmt ap c rest hfmt hnum _ ih =>
    intro fuel out hfuel hroom
    obtain ⟨fuel, rfl⟩ : ∃ n, fuel = n + 1 := ⟨fuel - 1, by rw [List.length_cons] at hfuel; omega⟩
    have hc : deref (parseSpec fmt ap).fmt = c := by
      rw [hfmt]
      rfl
    have hrange := parseSpec_range fmt ap
    have hout : out.length ≤ size - 1 := by omega
    obtain ⟨out', hconv, hlen⟩ := convert_of_fits hout hrange.1 hrange.2 (by rwa [hc])
    rw [hc] at hconv hlen
    rw [vsnprintfLoop_conversion (by omega) hconv hfmt]
    refine ih fuel out' ?_ (by omega)
    have hle := parseSpec_length fmt ap
    rw [hfmt, List.length_cons] at hle
    rw [List.length_cons] at hfuel
    omega

/-- **A format that is printed fits.** -/
theorem fits_of_vsnprintfLoop : ∀ (fuel : Nat) (fmt : List UInt8) (ap : VaList) (out : List UInt8), out.length ≤ size - 1 →
    (vsnprintfLoop size fuel fmt ap out).isSome → Fits (size - 1 - out.length) fmt ap
  | _, [], _, _, _, _ => .nul
  | 0, _ :: _, _, _, _, h => by cases h
  | fuel + 1, c :: fmt, ap, out, hle, h => by
    by_cases hout : out.length < size - 1
    · obtain ⟨room, hroom⟩ : ∃ n, size - 1 - out.length = n + 1 := ⟨size - 1 - out.length - 1, by omega⟩
      rw [hroom]
      by_cases hc : c = chr '%'
      · obtain ⟨hconv, hfmt⟩ := conversion_of_vsnprintfLoop hout (hc ▸ h)
        obtain ⟨d, rest, hfmt⟩ := List.exists_cons_of_ne_nil hfmt
        have hd : deref (parseSpec fmt ap).fmt = d := by
          rw [hfmt]
          rfl
        have hnum : ∀ a, numArg (parseSpec fmt ap) d = some a →
            a.Fits (parseSpec fmt ap).width (parseSpec fmt ap).precision := fun a ha => by
          by_contra hno
          rw [convert_of_not_fits (by rwa [hd]) hno] at hconv
          cases hconv
        have hrange := parseSpec_range fmt ap
        obtain ⟨out', hout', hlen⟩ := convert_of_fits hle hrange.1 hrange.2 (by rwa [hd])
        rw [hd] at hout' hlen
        rw [hc, vsnprintfLoop_conversion hout hout' hfmt] at h
        have ih := fits_of_vsnprintfLoop fuel rest _ out' (by omega) h
        rw [hc]
        refine .conversion hfmt hnum ?_
        rwa [show room + 1 - convLen (parseSpec fmt ap) d = size - 1 - out'.length by omega]
      · rw [vsnprintfLoop_literal hc hout] at h
        have hlen : (out ++ [c]).length = out.length + 1 := by simp
        have hle' : (out ++ [c]).length ≤ size - 1 := by omega
        have ih := fits_of_vsnprintfLoop fuel fmt ap (out ++ [c]) hle' h
        rw [hlen, show size - 1 - (out.length + 1) = room by omega] at ih
        exact .literal hc ih
    · rw [show size - 1 - out.length = 0 by omega]
      exact .full

/-- **`vsnprintf` stays inside its arrays exactly for the formats that fit**, and then ends the buffer with a NUL. -/
theorem vsnprintf_iff_fits (hsize : 0 < size) (fmt : List UInt8) (ap : VaList) :
    (∃ out, vsnprintf size fmt ap = some (out ++ [0]) ∧ out.length < size) ↔ Fits (size - 1) fmt ap := by
  have h0 : size ≠ 0 := hsize.ne'
  unfold vsnprintf
  rw [if_neg h0]
  constructor
  · rintro ⟨out, hout, -⟩
    refine fits_of_vsnprintfLoop fmt.length fmt ap [] (Nat.zero_le _) ?_
    by_contra hno
    rw [Option.not_isSome_iff_eq_none] at hno
    rw [hno] at hout
    cases hout
  · intro h
    have hroom : ([] : List UInt8).length + (size - 1) = size - 1 := Nat.zero_add _
    obtain ⟨out, hout, hlen⟩ := vsnprintfLoop_of_fits h fmt.length [] (Nat.le_refl _) hroom
    refine ⟨out, ?_, by omega⟩
    rw [hout, Option.bind_eq_bind, Option.bind_some, Room.push_of_lt (by omega)]

end Printk
end Pico
