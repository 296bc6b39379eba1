import Picomimi.PrintkSafe
/-!
# LibPrintf — `vsnprintf` and `vprintf` of the C library

The two read a conversion alike.  `vsnprintf` counts what is left of its buffer, `vprintf` writes to the standard output.  As
in `Printk`, a store outside an array and a look behind the NUL of the format have no value.
-/
namespace Pico
namespace LibPrintf

open Lib
open Printk (VaList chr deref asInt digit digitCount nullStr parseDigits)

/-- What is parsed of a conversion before its letter, and where the letter is. -/
structure Directive where
  padch : UInt8
  padw : Int
  lng : Nat
  fmt : List UInt8

def parseDirective (fmt : List UInt8) : Directive :=
  let (padch, fmt) := if deref fmt = chr '0' then (chr '0', fmt.tail) else (chr ' ', fmt)
  let (padw, fmt) := parseDigits fmt 0
  let (lng, fmt) := if deref fmt = chr 'l' then (1, fmt.tail) else (0, fmt)
  let (lng, fmt) := if deref fmt = chr 'l' then (lng + 1, fmt.tail) else (lng, fmt)
  ⟨padch, padw, lng, fmt⟩

/-- The signed argument of a conversion. -/
def signedArg (d : Directive) (w : UInt64) : Int :=
  if d.lng ≠ 0 then (if w.toNat < 9223372036854775808 then w.toNat else (w.toNat : Int) - word64) else asInt w

/-- The unsigned argument of a conversion. -/
def unsignedArg (d : Directive) (w : UInt64) : Nat := if d.lng ≠ 0 then w.toNat else w.toNat % word32

/-- The string at a pointer, `(null)` at 0. -/
def strArg (ap : VaList) : List UInt8 := if ap.next.1 = 0 then nullStr else ap.str ap.next.1

/-! ### `vsnprintf` -/

/-- What stands in front of `p`, and `left`. -/
structure Out where
  buf : List UInt8
  left : Nat

/-- `*p++ = c; left--;`. -/
def put (sz : Nat) (o : Out) (c : UInt8) : Option Out := Room.push sz o.buf c >>= fun buf => some ⟨buf, o.left - 1⟩

/-- `if (left > 1) { *p++ = c; left--; }`. -/
def putIf (sz : Nat) (o : Out) (c : UInt8) : Option Out := if 1 < o.left then put sz o c else some o

/-- A text, character by character while `left > 1`. -/
def putAll (sz : Nat) : List UInt8 → Out → Option Out
  | [], o => some o
  | c :: text, o => if 1 < o.left then put sz o c >>= putAll sz text else some o

/-- `_fmt_num` with an array `tmp` of 22, and the `p += w; left -= w;` of its caller. -/
def fmtNum (sz : Nat) (o : Out) (v base : Nat) (pad : Int) (padch : UInt8) : Option Out := do
  let tmp ← (if v = 0 then Room.push 22 [] (chr '0') else Room.pushDigits 22 (digit false) base 64 v [])
  let o ← putAll sz (List.replicate (pad - tmp.length).toNat padch) o
  putAll sz tmp.reverse o

/-- The `switch` of `vsnprintf`. -/
def convert (sz : Nat) (d : Directive) (conv : UInt8) (ap : VaList) (o : Out) : Option (Out × VaList) := do
  if conv = chr 'd' ∨ conv = chr 'i' then
    let v := signedArg d ap.next.1
    let o' ← (if v < 0 ∧ 1 < o.left then put sz o (chr '-') else some o)
    let v := if v < 0 ∧ 1 < o.left then -v else v
    let o ← fmtNum sz o' (v % word64).toNat 10 d.padw d.padch
    some (o, ap.next.2)
  else if conv = chr 'u' then
    let o ← fmtNum sz o (unsignedArg d ap.next.1) 10 d.padw d.padch
    some (o, ap.next.2)
  else if conv = chr 'x' ∨ conv = chr 'X' then
    let o ← fmtNum sz o (unsignedArg d ap.next.1) 16 d.padw d.padch
    some (o, ap.next.2)
  else if conv = chr 'p' then
    let o ← (if 2 < o.left then put sz o (chr '0') >>= fun o => put sz o (chr 'x') else some o)
    let o ← fmtNum sz o ap.next.1.toNat 16 d.padw d.padch
    some (o, ap.next.2)
  else if conv = chr 's' then
    let o ← putAll sz (strArg ap) o
    some (o, ap.next.2)
  else if conv = chr 'c' then
    let o ← putIf sz o ap.next.1.toUInt8
    some (o, ap.next.2)
  else if conv = chr '%' then
    let o ← putIf sz o (chr '%')
    some (o, ap)
  else
    let o ← putIf sz o conv
    some (o, ap)

/-- The loop of `vsnprintf`, in at most `fuel` turns. -/
def vsnprintfLoop (sz : Nat) : Nat → List UInt8 → VaList → Out → Option Out
  | _, [], _, o => some o
  | 0, _ :: _, _, _ => none
  | fuel + 1, c :: fmt, ap, o =>
    if 1 < o.left then
      if c ≠ chr '%' then put sz o c >>= vsnprintfLoop sz fuel fmt ap
      else do
        let d := parseDirective fmt
        let (o, ap) ← convert sz d (deref d.fmt) ap o
        match d.fmt with
        -- `char conv = *fmt++;` leaves the NUL behind, and the test of the loop reads there
        | [] => none
        | _ :: fmt => vsnprintfLoop sz fuel fmt ap o
    else some o

/-- `vsnprintf`: the bytes it leaves in `buf`, the NUL last. -/
def vsnprintf (sz : Nat) (fmt : List UInt8) (ap : VaList) : Option (List UInt8) := do
  let o ← vsnprintfLoop sz fmt.length fmt ap ⟨[], sz⟩
  if 0 < sz then Room.push sz o.buf 0 else some o.buf

/-! ### `vprintf` -/

/-- `_print_uint`: the text it writes, put together in an array `tmp` of 24. -/
def printUint (v base : Nat) (width : Int) (zeroPad : Bool) : Option (List UInt8) := do
  let tmp ← (if v = 0 then Room.push 24 [] (chr '0') else Room.pushDigits 24 (digit false) base 64 v [])
  let tmp ← Room.pushN 24 (if zeroPad then chr '0' else chr ' ') (width - tmp.length).toNat tmp
  some tmp.reverse

/-- The `switch` of `vprintf`: the text written, what it adds to `written`, and the arguments that are left. -/
def printConv (d : Directive) (conv : UInt8) (ap : VaList) : Option (List UInt8 × Nat × VaList) := do
  let zeroPad := decide (d.padch = chr '0')
  if conv = chr 's' then some (strArg ap, (strArg ap).length, ap.next.2)
  else if conv = chr 'd' then
    let v := signedArg d ap.next.1
    let text ← printUint v.natAbs 10 d.padw zeroPad
    some (if v < 0 then (chr '-' :: text, 1, ap.next.2) else (text, 0, ap.next.2))
  else if conv = chr 'u' then
    let text ← printUint (unsignedArg d ap.next.1) 10 d.padw zeroPad
    some (text, 0, ap.next.2)
  else if conv = chr 'x' ∨ conv = chr 'X' then
    let text ← printUint (unsignedArg d ap.next.1) 16 d.padw zeroPad
    some (text, 0, ap.next.2)
  else if conv = chr 'p' then
    let text ← printUint ap.next.1.toNat 16 16 true
    some (chr '0' :: chr 'x' :: text, 0, ap.next.2)
  else if conv = chr 'c' then some ([ap.next.1.toUInt8], 1, ap.next.2)
  else if conv = chr '%' then some ([chr '%'], 1, ap)
  else some ([chr '?'], 1, ap)

/-- The loop of `vprintf`, in at most `fuel` turns: what it has written, and `written`. -/
def vprintfLoop : Nat → List UInt8 → VaList → List UInt8 → Int → Option (List UInt8 × Int)
  | _, [], _, out, written => some (out, written)
  | 0, _ :: _, _, _, _ => none
  | fuel + 1, c :: fmt, ap, out, written =>
    if c ≠ chr '%' then vprintfLoop fuel fmt ap (out ++ [c]) (cInt (written + 1))
    else do
      let d := parseDirective fmt
      let (text, n, ap) ← printConv d (deref d.fmt) ap
      match d.fmt with
      -- `switch (*fmt++)` leaves the NUL behind
      | [] => none
      | _ :: fmt => vprintfLoop fuel fmt ap (out ++ text) (cInt (written + n))

def vprintf (fmt : List UInt8) (ap : VaList) : Option (List UInt8 × Int) := vprintfLoop fmt.length fmt ap [] 0

/-! ### When they stay inside their arrays -/

/-- The number of characters of a conversion of `vsnprintf`. -/
def convLen (d : Directive) (conv : UInt8) (ap : VaList) : Nat :=
  let v := signedArg d ap.next.1
  if conv = chr 'd' ∨ conv = chr 'i' then (if v < 0 then 1 else 0) + max (digitCount 10 v.natAbs) d.padw.toNat
  else if conv = chr 'u' then max (digitCount 10 (unsignedArg d ap.next.1)) d.padw.toNat
  else if conv = chr 'x' ∨ conv = chr 'X' then max (digitCount 16 (unsignedArg d ap.next.1)) d.padw.toNat
  else if conv = chr 'p' then 2 + max (digitCount 16 ap.next.1.toNat) d.padw.toNat
  else if conv = chr 's' then (strArg ap).length
  else 1

/-- The arguments behind a conversion of `vsnprintf`. -/
def convRest (conv : UInt8) (ap : VaList) : VaList :=
  if conv = chr 'd' ∨ conv = chr 'i' ∨ conv = chr 'u' ∨ conv = chr 'x' ∨ conv = chr 'X' ∨ conv = chr 'p' ∨ conv = chr 's' ∨
    conv = chr 'c' then ap.next.2 else ap

/-- **Every conversion `vsnprintf` comes to has its letter**: `room` is what is left in front of the last byte of the buffer. -/
inductive Complete : Nat → List UInt8 → VaList → Prop
  | nul {room : Nat} {ap : VaList} : Complete room [] ap
  | full {fmt : List UInt8} {ap : VaList} : Complete 0 fmt ap
  | literal {room : Nat} {c : UInt8} {fmt : List UInt8} {ap : VaList} (hc : c ≠ chr '%') (h : Complete room fmt ap) :
      Complete (room + 1) (c :: fmt) ap
  | conversion {room : Nat} {fmt : List UInt8} {ap : VaList} {c : UInt8} {rest : List UInt8}
      (hfmt : (parseDirective fmt).fmt = c :: rest)
      (h : Complete (room + 1 - convLen (parseDirective fmt) c ap) rest (convRest c ap)) :
      Complete (room + 1) (chr '%' :: fmt) ap

/-- **Every conversion of a format for `vprintf` has its letter, and a number the width of `tmp`** at most. -/
inductive Narrow : List UInt8 → Prop
  | nul : Narrow []
  | literal {c : UInt8} {fmt : List UInt8} (hc : c ≠ chr '%') (h : Narrow fmt) : Narrow (c :: fmt)
  | conversion {fmt : List UInt8} {c : UInt8} {rest : List UInt8} (hfmt : (parseDirective fmt).fmt = c :: rest)
      (hwidth : c = chr 'd' ∨ c = chr 'u' ∨ c = chr 'x' ∨ c = chr 'X' → (parseDirective fmt).padw ≤ 24) (h : Narrow rest) :
      Narrow (chr '%' :: fmt)

/-! ### The buffer of `vsnprintf` -/

/-- `n` characters in front of `p`, and `left` counts the rest of the `sz` bytes. -/
structure At (sz n : Nat) (o : Out) : Prop where
  length : o.buf.length = n
  left : n + o.left = sz
  room : n < sz

variable {sz n : Nat} {o : Out}

theorem At.lt_iff (h : At sz n o) : 1 < o.left ↔ n < sz - 1 := by
  have := h.left
  omega

theorem At.put (h : At sz n o) (hn : n < sz - 1) (c : UInt8) : ∃ o', put sz o c = some o' ∧ At sz (n + 1) o' := by
  have hlen := h.length
  have hleft := h.left
  refine ⟨⟨o.buf ++ [c], o.left - 1⟩, ?_, ?_, ?_, by omega⟩
  · rw [LibPrintf.put, Room.push_of_lt (by omega)]
    rfl
  · rw [List.length_append, List.length_singleton, hlen]
  · dsimp only
    omega

theorem At.putIf (h : At sz n o) (c : UInt8) : ∃ o', putIf sz o c = some o' ∧ At sz (min (sz - 1) (n + 1)) o' := by
  unfold LibPrintf.putIf
  by_cases hn : n < sz - 1
  · obtain ⟨o', ho', h'⟩ := h.put hn c
    rw [if_pos (h.lt_iff.2 hn), show min (sz - 1) (n + 1) = n + 1 by omega]
    exact ⟨o', ho', h'⟩
  · have := h.room
    rw [if_neg (fun hl => hn (h.lt_iff.1 hl)), show min (sz - 1) (n + 1) = n by omega]
    exact ⟨o, rfl, h⟩

theorem At.putAll : ∀ (text : List UInt8) {n : Nat} {o : Out}, At sz n o →
    ∃ o', putAll sz text o = some o' ∧ At sz (min (sz - 1) (n + text.length)) o'
  | [], n, o, h => by
    have := h.room
    rw [List.length_nil, show min (sz - 1) (n + 0) = n by omega]
    exact ⟨o, rfl, h⟩
  | c :: text, n, o, h => by
    have hroom := h.room
    unfold LibPrintf.putAll
    rw [List.length_cons]
    by_cases hn : n < sz - 1
    · obtain ⟨mid, hmid, h'⟩ := h.put hn c
      obtain ⟨o', ho', h''⟩ := At.putAll text h'
      rw [if_pos (h.lt_iff.2 hn), hmid, show n + (text.length + 1) = n + 1 + text.length by omega]
      exact ⟨o', ho', h''⟩
    · rw [if_neg (fun hl => hn (h.lt_iff.1 hl)), show min (sz - 1) (n + (text.length + 1)) = n by omega]
      exact ⟨o, rfl, h⟩

/-- `_fmt_num` never leaves its array, and writes as many characters as it should where there is room. -/
theorem At.fmtNum {v base : Nat} (h : At sz n o) (hv : v < word64) (hb : 8 ≤ base ∧ base ≤ 16) (pad : Int) (padch : UInt8) :
    ∃ o', fmtNum sz o v base pad padch = some o' ∧ At sz (min (sz - 1) (n + max (digitCount base v) pad.toNat)) o' := by
  obtain ⟨ds, hds, hlen, -, -⟩ := Printk.digits_stored false (Nat.le_refl 22) hv hb
  obtain ⟨mid, hmid, h'⟩ := At.putAll (List.replicate (pad - ds.length).toNat padch) h
  obtain ⟨o', ho', h''⟩ := At.putAll ds.reverse h'
  refine ⟨o', ?_, ?_⟩
  · rw [LibPrintf.fmtNum, hds, Option.bind_eq_bind, Option.bind_some, hmid, Option.bind_eq_bind, Option.bind_some, ho']
  · rw [List.length_replicate, List.length_reverse] at h''
    rw [← hlen]
    convert h'' using 1
    omega

/-- The value whose digits are printed. -/
theorem natAbs_signedArg_lt (d : Directive) (w : UInt64) : (signedArg d w).natAbs < word64 := by
  have hw := w.toNat_lt
  have hint : (asInt w).natAbs ≤ 2147483648 := by
    have := Printk.cInt_range w.toNat
    unfold asInt
    omega
  unfold signedArg
  split
  · split <;> unfold word64 <;> omega
  · unfold word64
    omega

theorem unsignedArg_lt (d : Directive) (w : UInt64) : unsignedArg d w < word64 := by
  have hw := w.toNat_lt
  unfold unsignedArg word64 word32
  split <;> omega

/-- The sign and the digits of a signed number. -/
theorem At.signed (h : At sz n o) (hn : n < sz - 1) (d : Directive) (v : Int) (hv : v.natAbs < word64) :
    ∃ o', (do
        let o' ← (if v < 0 ∧ 1 < o.left then LibPrintf.put sz o (chr '-') else some o)
        LibPrintf.fmtNum sz o' ((if v < 0 ∧ 1 < o.left then -v else v) % word64).toNat 10 d.padw d.padch) = some o' ∧
      At sz (min (sz - 1) (n + ((if v < 0 then 1 else 0) + max (digitCount 10 v.natAbs) d.padw.toNat))) o' := by
  have hb : 8 ≤ 10 ∧ 10 ≤ 16 := by decide
  have hleft := h.lt_iff.2 hn
  by_cases hneg : v < 0
  · obtain ⟨mid, hmid, h'⟩ := h.put hn (chr '-')
    obtain ⟨o', ho', h''⟩ := h'.fmtNum hv hb d.padw d.padch
    have hval : ((-v) % word64).toNat = v.natAbs := by
      rw [Int.emod_eq_of_lt (by omega) (by omega)]
      omega
    refine ⟨o', ?_, ?_⟩
    · rw [if_pos ⟨hneg, hleft⟩, if_pos ⟨hneg, hleft⟩, hmid, Option.bind_eq_bind, Option.bind_some, hval, ho']
    · rw [if_pos hneg, ← Nat.add_assoc]
      exact h''
  · obtain ⟨o', ho', h''⟩ := h.fmtNum hv hb d.padw d.padch
    have hval : (v % word64).toNat = v.natAbs := by
      rw [Int.emod_eq_of_lt (by omega) (by omega)]
      omega
    refine ⟨o', ?_, ?_⟩
    · rw [if_neg (fun hc => hneg hc.1), if_neg (fun hc => hneg hc.1), Option.bind_eq_bind, Option.bind_some, hval, ho']
    · rw [if_neg hneg, Nat.zero_add]
      exact h''

/-- The `0x` and the digits of a pointer. -/
theorem At.pointer (h : At sz n o) (hn : n < sz - 1) (d : Directive) (w : UInt64) :
    ∃ o', (do
        let o' ← (if 2 < o.left then LibPrintf.put sz o (chr '0') >>= fun o => LibPrintf.put sz o (chr 'x') else some o)
        LibPrintf.fmtNum sz o' w.toNat 16 d.padw d.padch) = some o' ∧
      At sz (min (sz - 1) (n + (2 + max (digitCount 16 w.toNat) d.padw.toNat))) o' := by
  have hb : 8 ≤ 16 ∧ 16 ≤ 16 := by decide
  have hleft := h.left
  have hpos : 1 ≤ digitCount 16 w.toNat := le_max_left _ _
  by_cases h2 : 2 < o.left
  · obtain ⟨o₁, ho₁, h₁⟩ := h.put hn (chr '0')
    obtain ⟨o₂, ho₂, h₂⟩ := h₁.put (by omega) (chr 'x')
    obtain ⟨o', ho', h'⟩ := h₂.fmtNum w.toNat_lt hb d.padw d.padch
    refine ⟨o', ?_, ?_⟩
    · rw [if_pos h2, ho₁, Option.bind_eq_bind, Option.bind_some, ho₂, Option.bind_some, ho']
    · rw [← Nat.add_assoc]
      exact h'
  · -- one byte is left, and a digit takes it
    obtain ⟨o', ho', h'⟩ := h.fmtNum w.toNat_lt hb d.padw d.padch
    refine ⟨o', ?_, ?_⟩
    · rw [if_neg h2, Option.bind_eq_bind, Option.bind_some, ho']
    · convert h' using 1
      omega

theorem bind_then {α β γ : Type} {x : Option α} {f : α → Option β} {b : β} (h : x >>= f = some b) (g : β → Option γ) :
    (x >>= fun a => f a >>= g) = g b := by
  rw [← bind_assoc, h]
  rfl

/-- A conversion of a letter that has no case of its own. -/
theorem convert_default {conv : UInt8} (d : Directive) (ap : VaList) (o : Out)
    (h : ¬(conv = chr 'd' ∨ conv = chr 'i' ∨ conv = chr 'u' ∨ conv = chr 'x' ∨ conv = chr 'X' ∨ conv = chr 'p' ∨ conv = chr 's' ∨
      conv = chr 'c')) :
    convLen d conv ap = 1 ∧ convRest conv ap = ap ∧
      convert sz d conv ap o = LibPrintf.putIf sz o conv >>= fun o => some (o, ap) := by
  have hrest : convRest conv ap = ap := if_neg h
  simp only [not_or] at h
  obtain ⟨hd, hi, hu, hx, hX, hp, hs, hc⟩ := h
  have hdi : ¬(conv = chr 'd' ∨ conv = chr 'i') := not_or.2 ⟨hd, hi⟩
  have hxX : ¬(conv = chr 'x' ∨ conv = chr 'X') := not_or.2 ⟨hx, hX⟩
  refine ⟨?_, hrest, ?_⟩
  · rw [convLen, if_neg hdi, if_neg hu, if_neg hxX, if_neg hp, if_neg hs]
  · rw [LibPrintf.convert, if_neg hdi, if_neg hu, if_neg hxX, if_neg hp, if_neg hs, if_neg hc]
    by_cases hpct : conv = chr '%'
    · rw [if_pos hpct, hpct]
    · rw [if_neg hpct]

/-- **A conversion stays inside the buffer**, and gives it as many characters as it should where there is room. -/
theorem At.convert (h : At sz n o) (hn : n < sz - 1) (d : Directive) (conv : UInt8) (ap : VaList) :
    ∃ o', convert sz d conv ap o = some (o', convRest conv ap) ∧ At sz (min (sz - 1) (n + convLen d conv ap)) o' := by
  have h10 : 8 ≤ 10 ∧ 10 ≤ 16 := by decide
  have h16 : 8 ≤ 16 ∧ 16 ≤ 16 := by decide
  by_cases hcase : conv = chr 'd' ∨ conv = chr 'i' ∨ conv = chr 'u' ∨ conv = chr 'x' ∨ conv = chr 'X' ∨ conv = chr 'p' ∨
    conv = chr 's' ∨ conv = chr 'c'
  · have hsigned := h.signed hn d _ (natAbs_signedArg_lt d ap.next.1)
    have hu10 := h.fmtNum (unsignedArg_lt d ap.next.1) h10 d.padw d.padch
    have hu16 := h.fmtNum (unsignedArg_lt d ap.next.1) h16 d.padw d.padch
    rcases hcase with rfl | rfl | rfl | rfl | rfl | rfl | rfl | rfl
    · obtain ⟨o', ho', h'⟩ := hsigned
      exact ⟨o', bind_then ho' fun o => some (o, ap.next.2), h'⟩
    · obtain ⟨o', ho', h'⟩ := hsigned
      exact ⟨o', bind_then ho' fun o => some (o, ap.next.2), h'⟩
    · obtain ⟨o', ho', h'⟩ := hu10
      refine ⟨o', ?_, h'⟩
      change (LibPrintf.fmtNum sz o _ 10 d.padw d.padch).bind _ = _
      rw [ho']
      rfl
    · obtain ⟨o', ho', h'⟩ := hu16
      refine ⟨o', ?_, h'⟩
      change (LibPrintf.fmtNum sz o _ 16 d.padw d.padch).bind _ = _
      rw [ho']
      rfl
    · obtain ⟨o', ho', h'⟩ := hu16
      refine ⟨o', ?_, h'⟩
      change (LibPrintf.fmtNum sz o _ 16 d.padw d.padch).bind _ = _
      rw [ho']
      rfl
    · obtain ⟨o', ho', h'⟩ := h.pointer hn d ap.next.1
      exact ⟨o', bind_then ho' fun o => some (o, ap.next.2), h'⟩
    · obtain ⟨o', ho', h'⟩ := At.putAll (strArg ap) h
      refine ⟨o', ?_, h'⟩
      change (LibPrintf.putAll sz _ o).bind _ = _
      rw [ho']
      rfl
    · obtain ⟨o', ho', h'⟩ := h.putIf ap.next.1.toUInt8
      refine ⟨o', ?_, h'⟩
      change (LibPrintf.putIf sz o _).bind _ = _
      rw [ho']
      rfl
  · obtain ⟨hlen, hrest, heq⟩ := convert_default d ap o hcase
    obtain ⟨o', ho', h'⟩ := h.putIf conv
    rw [hlen, hrest, heq, ho']
    exact ⟨o', rfl, h'⟩

/-! ### The whole format of `vsnprintf` -/

theorem parseDirective_length (fmt : List UInt8) : (parseDirective fmt).fmt.length ≤ fmt.length := by
  have htail : ∀ l : List UInt8, l.tail.length ≤ l.length := fun l => by
    rw [List.length_tail]
    exact Nat.sub_le _ _
  have hpad : (if deref fmt = chr '0' then (chr '0', fmt.tail) else (chr ' ', fmt)).2.length ≤ fmt.length := by
    split
    · exact htail fmt
    · exact Nat.le_refl _
  unfold parseDirective
  dsimp only
  generalize (if deref fmt = chr '0' then (chr '0', fmt.tail) else (chr ' ', fmt)).2 = f₁ at hpad ⊢
  have hdig := Printk.parseDigits_length f₁ 0
  generalize (parseDigits f₁ 0).2 = f₂ at hdig ⊢
  have hl : ∀ (f : List UInt8) (a b : Nat), (if deref f = chr 'l' then (a, f.tail) else (b, f)).2.length ≤ f.length :=
    fun f a b => by
      split
      · exact htail f
      · exact Nat.le_refl _
  exact Nat.le_trans (hl _ _ _) (Nat.le_trans (hl _ _ _) (Nat.le_trans hdig hpad))

theorem vsnprintfLoop_full {fuel : Nat} {fmt : List UInt8} {ap : VaList} (hfuel : fmt.length ≤ fuel) (hout : ¬1 < o.left) :
    vsnprintfLoop sz fuel fmt ap o = some o := by
  cases fmt with
  | nil => cases fuel <;> rfl
  | cons c fmt =>
    cases fuel with
    | zero => cases hfuel
    | succ fuel =>
      unfold vsnprintfLoop
      rw [if_neg hout]

theorem vsnprintfLoop_literal {fuel : Nat} {c : UInt8} {fmt : List UInt8} {ap : VaList} (hc : c ≠ chr '%') (hout : 1 < o.left) :
    vsnprintfLoop sz (fuel + 1) (c :: fmt) ap o = put sz o c >>= vsnprintfLoop sz fuel fmt ap := by
  rw [vsnprintfLoop, if_pos hout, if_pos hc]

theorem vsnprintfLoop_conversion {fuel : Nat} {fmt : List UInt8} {ap ap' : VaList} {o' : Out} {c : UInt8} {rest : List UInt8}
    (hout : 1 < o.left) (hconv : convert sz (parseDirective fmt) (deref (parseDirective fmt).fmt) ap o = some (o', ap'))
    (hfmt : (parseDirective fmt).fmt = c :: rest) :
    vsnprintfLoop sz (fuel + 1) (chr '%' :: fmt) ap o = vsnprintfLoop sz fuel rest ap' o' := by
  have hpct : ¬chr '%' ≠ chr '%' := not_not.2 rfl
  rw [vsnprintfLoop, if_pos hout, if_neg hpct]
  dsimp only
  rw [hconv, hfmt]
  rfl

/-- A conversion that the loop survives had its letter. -/
theorem letter_of_vsnprintfLoop {fuel : Nat} {fmt : List UInt8} {ap : VaList} (hout : 1 < o.left)
    (h : (vsnprintfLoop sz (fuel + 1) (chr '%' :: fmt) ap o).isSome) : (parseDirective fmt).fmt ≠ [] := fun hnil => by
  have hpct : ¬chr '%' ≠ chr '%' := not_not.2 rfl
  rw [vsnprintfLoop, if_pos hout, if_neg hpct] at h
  dsimp only at h
  rw [hnil] at h
  cases hconv : convert sz (parseDirective fmt) (deref []) ap o with
  | none =>
    rw [hconv] at h
    cases h
  | some r =>
    rw [hconv] at h
    cases h

/-- **A complete format is printed**, and leaves the byte for the NUL. -/
theorem vsnprintfLoop_of_complete {room : Nat} {fmt : List UInt8} {ap : VaList} (h : Complete room fmt ap) :
    ∀ (fuel n : Nat) (o : Out), fmt.length ≤ fuel → At sz n o → n + room = sz - 1 →
      ∃ m o', vsnprintfLoop sz fuel fmt ap o = some o' ∧ At sz m o' := by
  induction h with
  | nul =>
    intro fuel n o _ hat _
    exact ⟨n, o, by cases fuel <;> rfl, hat⟩
  | full =>
    intro fuel n o hfuel hat hroom
    exact ⟨n, o, vsnprintfLoop_full hfuel fun hl => by have := hat.lt_iff.1 hl; omega, hat⟩
  | literal hc _ ih =>
    intro fuel n o hfuel hat hroom
    obtain ⟨fuel, rfl⟩ : ∃ n, fuel = n + 1 := ⟨fuel - 1, by rw [List.length_cons] at hfuel; omega⟩
    obtain ⟨o', ho', h'⟩ := hat.put (by omega) _
    rw [vsnprintfLoop_literal hc (hat.lt_iff.2 (by omega)), ho']
    exact ih fuel (n + 1) o' (Nat.le_of_succ_le_succ hfuel) h' (by omega)
  | @conversion room fmt ap c rest hfmt _ ih =>
    intro fuel n o hfuel hat hroom
    obtain ⟨fuel, rfl⟩ : ∃ n, fuel = n + 1 := ⟨fuel - 1, by rw [List.length_cons] at hfuel; omega⟩
    have hc : deref (parseDirective fmt).fmt = c := by
      rw [hfmt]
      rfl
    obtain ⟨o', ho', h'⟩ := hat.convert (by omega) (parseDirective fmt) c ap
    have hconv : convert sz (parseDirective fmt) (deref (parseDirective fmt).fmt) ap o = some (o', convRest c ap) := by
      rw [hc, ho']
    rw [vsnprintfLoop_conversion (hat.lt_iff.2 (by omega)) hconv hfmt]
    refine ih fuel _ o' ?_ h' (by omega)
    have hle := parseDirective_length fmt
    rw [hfmt, List.length_cons] at hle
    rw [List.length_cons] at hfuel
    omega

/-- **A format that is printed is complete.** -/
theorem complete_of_vsnprintfLoop : ∀ (fuel : Nat) (fmt : List UInt8) (ap : VaList) (n : Nat) (o : Out), At sz n o →
    (vsnprintfLoop sz fuel fmt ap o).isSome → Complete (sz - 1 - n) fmt ap
  | _, [], _, _, _, _, _ => .nul
  | 0, _ :: _, _, _, _, _, h => by cases h
  | fuel + 1, c :: fmt, ap, n, o, hat, h => by
    by_cases hn : n < sz - 1
    · have hout := hat.lt_iff.2 hn
      rw [show sz - 1 - n = sz - 1 - n - 1 + 1 by omega]
      by_cases hc : c = chr '%'
      · rw [hc] at h ⊢
        obtain ⟨d, rest, hfmt⟩ := List.exists_cons_of_ne_nil (letter_of_vsnprintfLoop hout h)
        have hd : deref (parseDirective fmt).fmt = d := by
          rw [hfmt]
          rfl
        obtain ⟨o', ho', h'⟩ := hat.convert hn (parseDirective fmt) d ap
        have hconv : convert sz (parseDirective fmt) (deref (parseDirective fmt).fmt) ap o = some (o', convRest d ap) := by
          rw [hd, ho']
        rw [vsnprintfLoop_conversion hout hconv hfmt] at h
        have ih := complete_of_vsnprintfLoop fuel rest _ _ o' h' h
        refine .conversion hfmt ?_
        convert ih using 1
        omega
      · obtain ⟨o', ho', h'⟩ := hat.put hn c
        rw [vsnprintfLoop_literal hc hout, ho'] at h
        have ih := complete_of_vsnprintfLoop fuel fmt ap (n + 1) o' h' h
        exact .literal hc ih
    · rw [show sz - 1 - n = 0 by omega]
      exact .full

/-- **`vsnprintf` of the library stays inside its arrays exactly for the complete formats**, and then ends the buffer with a
NUL. -/
theorem vsnprintf_iff_complete (hsz : 0 < sz) (fmt : List UInt8) (ap : VaList) :
    (∃ out, vsnprintf sz fmt ap = some (out ++ [0]) ∧ out.length < sz) ↔ Complete (sz - 1) fmt ap := by
  have hat : At sz 0 ⟨[], sz⟩ := ⟨rfl, Nat.zero_add sz, hsz⟩
  unfold vsnprintf
  constructor
  · rintro ⟨out, hout, -⟩
    refine complete_of_vsnprintfLoop fmt.length fmt ap 0 _ hat ?_
    by_contra hno
    rw [Option.not_isSome_iff_eq_none] at hno
    rw [hno] at hout
    cases hout
  · intro h
    obtain ⟨m, o', ho', hm, -, hroom⟩ := vsnprintfLoop_of_complete h fmt.length 0 _ (Nat.le_refl _) hat (Nat.zero_add _)
    refine ⟨o'.buf, ?_, by omega⟩
    rw [ho', Option.bind_eq_bind, Option.bind_some, if_pos hsz, Room.push_of_lt (by omega)]

/-! ### `vprintf` -/

/-- **`_print_uint` stays inside its array exactly for a width of at most 24.** -/
theorem printUint_isSome_iff {v base : Nat} (hv : v < word64) (hb : 8 ≤ base ∧ base ≤ 16) (width : Int) (zeroPad : Bool) :
    (printUint v base width zeroPad).isSome ↔ width ≤ 24 := by
  obtain ⟨ds, hds, hlen, -, -⟩ := Printk.digits_stored false (by decide : 22 ≤ 24) hv hb
  have hcount := Printk.digitCount_le hb.1 hv
  rw [printUint, hds, Option.bind_eq_bind, Option.bind_some, Printk.bind_pushN (by omega)]
  split
  · exact iff_of_true rfl (by omega)
  · exact iff_of_false (fun h => by cases h) (by omega)

theorem isSome_bind_some {α β : Type} (x : Option α) (f : α → β) : (x >>= fun a => some (f a)).isSome = x.isSome := by
  cases x <;> rfl

theorem isSome_print {v base : Nat} (hv : v < word64) (hb : 8 ≤ base ∧ base ≤ 16) (width : Int) (zeroPad : Bool)
    (f : List UInt8 → List UInt8 × Nat × VaList) :
    (printUint v base width zeroPad >>= fun text => some (f text)).isSome ↔ width ≤ 24 := by
  rw [isSome_bind_some]
  exact printUint_isSome_iff hv hb width zeroPad

/-- A conversion of `vprintf` stays inside `tmp` exactly if it prints no number, or not too wide a one. -/
theorem printConv_isSome_iff (d : Directive) (c : UInt8) (ap : VaList) :
    (printConv d c ap).isSome ↔ (c = chr 'd' ∨ c = chr 'u' ∨ c = chr 'x' ∨ c = chr 'X' → d.padw ≤ 24) := by
  have h10 : 8 ≤ 10 ∧ 10 ≤ 16 := by decide
  have h16 : 8 ≤ 16 ∧ 16 ≤ 16 := by decide
  have hu := unsignedArg_lt d ap.next.1
  by_cases hnum : c = chr 'd' ∨ c = chr 'u' ∨ c = chr 'x' ∨ c = chr 'X'
  · rw [show (c = chr 'd' ∨ c = chr 'u' ∨ c = chr 'x' ∨ c = chr 'X' → d.padw ≤ 24) ↔ d.padw ≤ 24 from
      ⟨fun h => h hnum, fun h _ => h⟩]
    rcases hnum with rfl | rfl | rfl | rfl
    · exact isSome_print (natAbs_signedArg_lt d ap.next.1) h10 _ _ fun text =>
        if signedArg d ap.next.1 < 0 then (chr '-' :: text, 1, ap.next.2) else (text, 0, ap.next.2)
    · exact isSome_print hu h10 _ _ fun text => (text, 0, ap.next.2)
    · exact isSome_print hu h16 _ _ fun text => (text, 0, ap.next.2)
    · exact isSome_print hu h16 _ _ fun text => (text, 0, ap.next.2)
  · refine iff_of_true ?_ fun h => absurd h hnum
    simp only [not_or] at hnum
    obtain ⟨hd, hu', hx, hX⟩ := hnum
    unfold printConv
    dsimp only
    rw [if_neg hd, if_neg hu', if_neg (not_or.2 ⟨hx, hX⟩)]
    have hptr : (printUint ap.next.1.toNat 16 16 true).isSome :=
      (printUint_isSome_iff ap.next.1.toNat_lt h16 16 true).2 (by decide)
    split_ifs
    · rfl
    · rw [isSome_bind_some]
      exact hptr
    iterate 3 rfl

theorem vprintfLoop_isSome_iff : ∀ (fuel : Nat) (fmt : List UInt8) (ap : VaList) (out : List UInt8) (written : Int),
    fmt.length ≤ fuel → ((vprintfLoop fuel fmt ap out written).isSome ↔ Narrow fmt)
  | fuel, [], ap, out, written, _ => by
    refine iff_of_true ?_ .nul
    cases fuel <;> rfl
  | fuel + 1, c :: fmt, ap, out, written, hfuel => by
    have hfuel' : fmt.length ≤ fuel := Nat.le_of_succ_le_succ hfuel
    unfold vprintfLoop
    by_cases hc : c = chr '%'
    · have hpct : ¬c ≠ chr '%' := not_not.2 hc
      have hle := parseDirective_length fmt
      have hconv := printConv_isSome_iff (parseDirective fmt)
      rw [if_neg hpct, hc]
      dsimp only
      cases hfmt : (parseDirective fmt).fmt with
      | nil =>
        refine iff_of_false (fun h => ?_) fun h => ?_
        · cases hp : printConv (parseDirective fmt) (deref []) ap with
          | none =>
            rw [hp] at h
            cases h
          | some r =>
            rw [hp] at h
            cases h
        · cases h with
          | literal hc' _ => exact hc' rfl
          | conversion hfmt' _ _ =>
            rw [hfmt] at hfmt'
            cases hfmt'
      | cons d rest =>
        rw [hfmt, List.length_cons] at hle
        have hdir : Narrow (chr '%' :: fmt) ↔
            (d = chr 'd' ∨ d = chr 'u' ∨ d = chr 'x' ∨ d = chr 'X' → (parseDirective fmt).padw ≤ 24) ∧ Narrow rest := by
          refine ⟨fun h => ?_, fun h => .conversion hfmt h.1 h.2⟩
          cases h with
          | literal hc' _ => exact absurd rfl hc'
          | conversion hfmt' hw h =>
            rw [hfmt] at hfmt'
            cases hfmt'
            exact ⟨hw, h⟩
        rw [hdir, ← hconv d ap]
        change (Option.bind (printConv (parseDirective fmt) d ap) _).isSome = true ↔ _
        cases hp : printConv (parseDirective fmt) d ap with
        | none => exact iff_of_false (fun h => by cases h) fun h => by cases h.1
        | some r =>
          have ih := vprintfLoop_isSome_iff fuel rest r.2.2 (out ++ r.1) (cInt (written + r.2.1)) (by omega)
          exact ih.trans (and_iff_right rfl).symm
    · have hlit : Narrow (c :: fmt) ↔ Narrow fmt := by
        refine ⟨fun h => ?_, fun h => .literal hc h⟩
        cases h with
        | literal _ h => exact h
        | conversion _ _ _ => exact absurd rfl hc
      rw [if_pos hc, hlit]
      exact vprintfLoop_isSome_iff fuel fmt ap _ _ hfuel'

/-- **Formatted output stays in its buffers exactly for these formats.** -/
theorem output_bounded_iff (last : Nat) (fmt : List UInt8) (ap : VaList) :
    ((∃ out, Printk.vsnprintf (last + 1) fmt ap = some (out ++ [0]) ∧ out.length < last + 1) ↔ Printk.Fits last fmt ap) ∧
      ((∃ out, vsnprintf (last + 1) fmt ap = some (out ++ [0]) ∧ out.length < last + 1) ↔ Complete last fmt ap) ∧
      ((vprintf fmt ap).isSome ↔ Narrow fmt) :=
  ⟨Printk.vsnprintf_iff_fits (Nat.succ_pos last) fmt ap, vsnprintf_iff_complete (Nat.succ_pos last) fmt ap,
    vprintfLoop_isSome_iff fmt.length fmt ap [] 0 (Nat.le_refl _)⟩

/-- `%70d` is too wide for the 66 characters that `number_to_str` puts together. -/
theorem not_output_bounded :
    ¬∀ (last : Nat) (fmt : List UInt8) (ap : VaList),
      (∃ out, Printk.vsnprintf (last + 1) fmt ap = some (out ++ [0]) ∧ out.length < last + 1) ∧
        (∃ out, vsnprintf (last + 1) fmt ap = some (out ++ [0]) ∧ out.length < last + 1) ∧ (vprintf fmt ap).isSome := fun h => by
  obtain ⟨⟨out, hout, -⟩, -, -⟩ := h 127 ("%70d".toList.map chr) ⟨fun _ => 0, 0, fun _ => []⟩
  have hnone : Printk.vsnprintf 128 ("%70d".toList.map chr) ⟨fun _ => 0, 0, fun _ => []⟩ = none := by decide +kernel
  rw [hnone] at hout
  cases hout

end LibPrintf
end Pico
