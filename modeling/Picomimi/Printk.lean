import Picomimi.Lib.Checked
import Picomimi.Lib.Room
import Picomimi.Lib.Word
/-!
# Printk — `vsnprintf` of the kernel

A pointer into the format is the text from it to the NUL; a pointer behind the NUL has no value.  A store outside `buf` or
outside one of the arrays `tmp` has none either.  The arguments are a stream of words, each read as the type that the
conversion asks for, and a string is what stands at a pointer.  An `int` wraps (`cInt`).
-/
namespace Pico
namespace Printk

open Lib

/-- The flags of a conversion. -/
structure Flags where
  zeropad : Bool
  signed : Bool
  plus : Bool
  space : Bool
  left : Bool
  prefixed : Bool
  uppercase : Bool

def noFlags : Flags := ⟨false, false, false, false, false, false, false⟩

/-- A `va_list`: the words, how many are taken, and the strings that pointers among them point to. -/
structure VaList where
  word : Nat → UInt64
  pos : Nat
  str : UInt64 → List UInt8

def VaList.next (ap : VaList) : UInt64 × VaList := (ap.word ap.pos, { ap with pos := ap.pos + 1 })

def chr (c : Char) : UInt8 := c.toUInt8

/-- `*fmt`. -/
def deref (fmt : List UInt8) : UInt8 := fmt.headD 0

def isDigit (c : UInt8) : Bool := chr '0' ≤ c && c ≤ chr '9'

/-- A word read as an `int`. -/
def asInt (w : UInt64) : Int := cInt w.toNat

/-- `digits[i]`. -/
def digit (upper : Bool) (i : Nat) : UInt8 :=
  ((if upper then "0123456789ABCDEF" else "0123456789abcdef").toList.map chr).getD i 0

/-! ### Numbers -/

/-- `// Add prefix`, on the characters in `tmp`: the last one is the first digit. -/
def prefixChars (flags : Flags) (base : Nat) (tmp : List UInt8) : List UInt8 :=
  if flags.prefixed then
    if base = 16 then [if flags.uppercase then chr 'X' else chr 'x', chr '0']
    else if base = 8 ∧ tmp.getLast? ≠ some (chr '0') then [chr '0']
    else []
  else []

/-- `// Add sign`. -/
def signChars (flags : Flags) (negative : Bool) : List UInt8 :=
  if negative then [chr '-'] else if flags.plus then [chr '+'] else if flags.space then [chr ' '] else []

/-- `number_to_str` up to its copy loop: the characters in `tmp`, an array of 66, from the last one on. -/
def numberTmp (num base : Nat) (width precision : Int) (flags : Flags) : Option (List UInt8) := do
  let negative := decide (num ≠ 0 ∧ flags.signed = true ∧ 9223372036854775808 ≤ num)
  let tmp ← (if num = 0 then Room.push 66 [] (chr '0')
    else Room.pushDigits 66 (digit flags.uppercase) base 64 (if negative then word64 - num else num) [])
  let tmp ← Room.pushN 66 (chr '0') (precision - tmp.length).toNat tmp
  let tmp ← Room.pushAll 66 (prefixChars flags base tmp) tmp
  let tmp ← Room.pushAll 66 (signChars flags negative) tmp
  let pad := if flags.zeropad then chr '0' else chr ' '
  Room.pushN 66 pad (if flags.left then 0 else (width - tmp.length).toNat) tmp

/-- `number_to_str`: what it leaves in `buf`, an array of 68. -/
def numberToStr (num base : Nat) (width precision : Int) (flags : Flags) : Option (List UInt8) := do
  let tmp ← numberTmp num base width precision flags
  let buf ← Room.pushAll 68 tmp.reverse []
  let buf ← Room.pushN 68 (chr ' ') (if flags.left then (width - buf.length).toNat else 0) buf
  let _ ← Room.push 68 buf 0
  some buf

/-! ### The format -/

/-- The flags of a conversion, and what is behind them. -/
def parseFlags : List UInt8 → Flags → Flags × List UInt8
  | [], flags => (flags, [])
  | c :: fmt, flags =>
    if c = chr '-' then parseFlags fmt { flags with left := true }
    else if c = chr '+' then parseFlags fmt { flags with plus := true }
    else if c = chr ' ' then parseFlags fmt { flags with space := true }
    else if c = chr '#' then parseFlags fmt { flags with prefixed := true }
    else if c = chr '0' then parseFlags fmt { flags with zeropad := true }
    else (flags, c :: fmt)

/-- `while (*fmt >= '0' && *fmt <= '9') n = n * 10 + (*fmt++ - '0');`. -/
def parseDigits : List UInt8 → Int → Int × List UInt8
  | [], n => (n, [])
  | c :: fmt, n => if isDigit c then parseDigits fmt (cInt (n * 10 + (c.toNat - 48))) else (n, c :: fmt)

/-- What is parsed of a conversion before its letter, and where the letter is. -/
structure Spec where
  flags : Flags
  width : Int
  precision : Int
  length : Nat
  fmt : List UInt8
  ap : VaList

/-- `// Parse width`. -/
def parseWidth (flags : Flags) (fmt : List UInt8) (ap : VaList) : Spec :=
  if deref fmt = chr '*' then
    let (w, ap) := ap.next
    let width := asInt w
    if width < 0 then ⟨{ flags with left := true }, cInt (-width), -1, 0, fmt.tail, ap⟩
    else ⟨flags, width, -1, 0, fmt.tail, ap⟩
  else
    let (width, fmt) := parseDigits fmt 0
    ⟨flags, width, -1, 0, fmt, ap⟩

/-- `// Parse precision`. -/
def parsePrecision (sp : Spec) : Spec :=
  if deref sp.fmt = chr '.' then
    let fmt := sp.fmt.tail
    if deref fmt = chr '*' then
      let (w, ap) := sp.ap.next
      { sp with precision := asInt w, fmt := fmt.tail, ap := ap }
    else
      let (precision, fmt) := parseDigits fmt 0
      { sp with precision := precision, fmt := fmt }
  else sp

/-- `// Parse length modifier`. -/
def parseLength (sp : Spec) : Spec :=
  if deref sp.fmt = chr 'h' then
    if deref sp.fmt.tail = chr 'h' then { sp with length := 2, fmt := sp.fmt.tail.tail }
    else { sp with length := 1, fmt := sp.fmt.tail }
  else if deref sp.fmt = chr 'l' then
    if deref sp.fmt.tail = chr 'l' then { sp with length := 4, fmt := sp.fmt.tail.tail }
    else { sp with length := 3, fmt := sp.fmt.tail }
  else if deref sp.fmt = chr 'z' ∨ deref sp.fmt = chr 't' then { sp with length := 3, fmt := sp.fmt.tail }
  else sp

/-- From behind a `%` up to the letter of the conversion. -/
def parseSpec (fmt : List UInt8) (ap : VaList) : Spec :=
  let (flags, fmt) := parseFlags fmt noFlags
  parseLength (parsePrecision (parseWidth flags fmt ap))

/-- What a conversion gives to `number_to_str`. -/
structure NumArg where
  num : Nat
  base : Nat
  flags : Flags

/-- The conversions that go through `number_to_str`: the argument, with its type, the base and the flags. -/
def numArg (sp : Spec) (c : UInt8) : Option NumArg :=
  let w := sp.ap.next.1
  let unsigned := if 3 ≤ sp.length then w.toNat else w.toNat % word32
  if c = chr 'p' then some ⟨w.toNat, 16, { sp.flags with prefixed := true }⟩
  else if c = chr 'd' ∨ c = chr 'i' then
    some ⟨if 3 ≤ sp.length then w.toNat else (asInt w % word64).toNat, 10, { sp.flags with signed := true }⟩
  else if c = chr 'u' then some ⟨unsigned, 10, sp.flags⟩
  else if c = chr 'x' then some ⟨unsigned, 16, sp.flags⟩
  else if c = chr 'X' then some ⟨unsigned, 16, { sp.flags with uppercase := true }⟩
  else if c = chr 'o' then some ⟨unsigned, 8, sp.flags⟩
  else none

/-! ### Output

`if (str < end) *str++ = c;` on a buffer of `size` bytes is `Room.emit`. -/

/-- `while (--width > 0 && str < end) *str++ = ' ';` with `n` bytes in front of `end`: the width afterwards, and the bytes. -/
def padDown (size : Nat) : Nat → Int → List UInt8 → Option (Int × List UInt8)
  | 0, w, out => some (cInt (w - 1), out)
  | n + 1, w, out =>
    if 0 < cInt (w - 1) then Room.push size out (chr ' ') >>= padDown size n (cInt (w - 1)) else some (cInt (w - 1), out)

/-- `while (len < width-- && str < end) *str++ = ' ';`. -/
def padLess (size : Nat) (len : Int) : Nat → Int → List UInt8 → Option (Int × List UInt8)
  | 0, w, out => some (cInt (w - 1), out)
  | n + 1, w, out =>
    if len < w then Room.push size out (chr ' ') >>= padLess size len n (cInt (w - 1)) else some (cInt (w - 1), out)

/-- `(null)`. -/
def nullStr : List UInt8 := "(null)".toList.map chr

/-- The string a pointer argument stands for. -/
def strArg (sp : Spec) : List UInt8 :=
  let p := sp.ap.next.1
  if p = 0 then nullStr else sp.ap.str p

/-- `while (s[len] && (precision < 0 || len < precision)) len++;`, as the characters counted. -/
def counted (s : List UInt8) (precision : Int) : List UInt8 := if precision < 0 then s else s.take precision.toNat

/-- `case 'c':`. -/
def convertChar (size : Nat) (sp : Spec) (out : List UInt8) : Option (List UInt8) := do
  let (width, out) ← (if sp.flags.left then some (sp.width, out) else padDown size (size - 1 - out.length) sp.width out)
  let out ← Room.emit size out sp.ap.next.1.toUInt8
  let (_, out) ← padDown size (size - 1 - out.length) width out
  some out

/-- `case 's':`. -/
def convertStr (size : Nat) (sp : Spec) (out : List UInt8) : Option (List UInt8) := do
  let s := counted (strArg sp) sp.precision
  let len := s.length
  let (width, out) ← (if sp.flags.left then some (sp.width, out) else padLess size len (size - 1 - out.length) sp.width out)
  let out ← Room.emitAll size s out
  let (_, out) ← padLess size len (size - 1 - out.length) width out
  some out

/-- The `switch` on the letter of a conversion: what is in `buf` behind it, and the arguments that are left. -/
def convert (size : Nat) (sp : Spec) (out : List UInt8) : Option (List UInt8 × VaList) := do
  let c := deref sp.fmt
  if c = chr 'c' then
    let out ← convertChar size sp out
    some (out, sp.ap.next.2)
  else if c = chr 's' then
    let out ← convertStr size sp out
    some (out, sp.ap.next.2)
  else
    match numArg sp c with
    | some a =>
      let tmp ← numberToStr a.num a.base sp.width sp.precision a.flags
      let out ← Room.emitAll size (tmp.takeWhile (· ≠ 0)) out
      some (out, sp.ap.next.2)
    | none =>
      if c = chr '%' then
        let out ← Room.emit size out (chr '%')
        some (out, sp.ap)
      else
        let out ← Room.emit size out (chr '%')
        let out ← (if c ≠ 0 then Room.emit size out c else some out)
        some (out, sp.ap)

/-- The loop of `vsnprintf`, in at most `fuel` turns: what it leaves in `buf`. -/
def vsnprintfLoop (size : Nat) : Nat → List UInt8 → VaList → List UInt8 → Option (List UInt8)
  | _, [], _, out => some out
  | 0, _ :: _, _, _ => none
  | fuel + 1, c :: fmt, ap, out =>
    if out.length < size - 1 then
      if c ≠ chr '%' then Room.push size out c >>= vsnprintfLoop size fuel fmt ap
      else do
        let sp := parseSpec fmt ap
        let (out, ap) ← convert size sp out
        match sp.fmt with
        -- `fmt++` leaves the NUL behind, and the test of the loop reads there
        | [] => none
        | _ :: fmt => vsnprintfLoop size fuel fmt ap out
    else some out

/-- `vsnprintf`: the bytes it leaves in `buf`, the NUL last; it returns their number without the NUL. -/
def vsnprintf (size : Nat) (fmt : List UInt8) (ap : VaList) : Option (List UInt8) :=
  if size = 0 then some []
  else do
    let out ← vsnprintfLoop size fmt.length fmt ap []
    Room.push size out 0

/-! ### When it stays inside its arrays -/

/-- The number of digits of a number. -/
def digitCount (base num : Nat) : Nat := max 1 (Nat.digits base num).length

/-- The value whose digits are printed. -/
def NumArg.isNeg (a : NumArg) : Prop := a.num ≠ 0 ∧ a.flags.signed = true ∧ 9223372036854775808 ≤ a.num

instance (a : NumArg) : Decidable a.isNeg := instDecidableAnd

def NumArg.abs (a : NumArg) : Nat := if a.isNeg then word64 - a.num else a.num

/-- The characters of a number before it is filled up to the width: digits, zeros, prefix, sign. -/
def NumArg.len (a : NumArg) (precision : Int) : Nat :=
  max (digitCount a.base a.abs) precision.toNat +
    (if a.flags.prefixed then
      if a.base = 16 then 2 else if a.base = 8 ∧ a.num ≠ 0 ∧ precision ≤ digitCount a.base a.abs then 1 else 0
    else 0) +
    if a.isNeg ∨ a.flags.plus ∨ a.flags.space then 1 else 0

/-- **A number fits the arrays**: 66 characters in `tmp`, the fill on the left included; with it on the right, 67 and a NUL. -/
def NumArg.Fits (a : NumArg) (width precision : Int) : Prop :=
  a.len precision ≤ 66 ∧ width ≤ if a.flags.left then 67 else 66

instance (a : NumArg) (width precision : Int) : Decidable (a.Fits width precision) := instDecidableAnd

/-- The number of characters of a conversion. -/
def convLen (sp : Spec) (c : UInt8) : Nat :=
  if c = chr 'c' then
    if sp.flags.left then 1 + (cInt (sp.width - 1)).toNat
    else if 0 < cInt (sp.width - 1) then (cInt (sp.width - 1)).toNat + 1
    else 1 + (cInt (cInt (sp.width - 1) - 1)).toNat
  else if c = chr 's' then
    let len := (counted (strArg sp) sp.precision).length
    if sp.flags.left ∨ len < sp.width then max len sp.width.toNat else len + (cInt (sp.width - 1) - len).toNat
  else
    match numArg sp c with
    | some a => max (a.len sp.precision) sp.width.toNat
    | none => if c = chr '%' ∨ c = 0 then 1 else 2

/-- The arguments behind a conversion. -/
def convRest (sp : Spec) (c : UInt8) : VaList :=
  if c = chr 'c' ∨ c = chr 's' ∨ (numArg sp c).isSome then sp.ap.next.2 else sp.ap

/-- **Every conversion the loop comes to is complete, and its number fits**: `room` is what is left in front of the last
byte of the buffer. -/
inductive Fits : Nat → List UInt8 → VaList → Prop
  | nul {room : Nat} {ap : VaList} : Fits room [] ap
  | full {fmt : List UInt8} {ap : VaList} : Fits 0 fmt ap
  | literal {room : Nat} {c : UInt8} {fmt : List UInt8} {ap : VaList} (hc : c ≠ chr '%') (h : Fits room fmt ap) :
      Fits (room + 1) (c :: fmt) ap
  | conversion {room : Nat} {fmt : List UInt8} {ap : VaList} {c : UInt8} {rest : List UInt8}
      (hfmt : (parseSpec fmt ap).fmt = c :: rest)
      (hnum : ∀ a, numArg (parseSpec fmt ap) c = some a → a.Fits (parseSpec fmt ap).width (parseSpec fmt ap).precision)
      (h : Fits (room + 1 - convLen (parseSpec fmt ap) c) rest (convRest (parseSpec fmt ap) c)) :
      Fits (room + 1) (chr '%' :: fmt) ap

end Printk
end Pico
