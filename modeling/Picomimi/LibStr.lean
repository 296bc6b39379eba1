import Mathlib.Data.List.Infix
import Mathlib.Data.UInt
/-!
# LibStr — the bounded string functions of the C library and of the kernel

Both libraries run a counter down beside the pointers.  The kernel tests it before it counts; the C library counts in the
test itself (`n--`), so that after a loop the counter is one lower than the characters that are left, and `SIZE_MAX` when it
was the test of the counter that failed.
-/
namespace Pico
namespace Libc

/-- `(size_t)-1`, what `n--` leaves of 0. -/
def sizeMax : Nat := 18446744073709551615

/-- The string `l` stands in memory from `i` on, with its NUL. -/
def StrAt (m : Nat → UInt8) : Nat → List UInt8 → Prop
  | i, [] => m i = 0
  | i, c :: l => m i = c ∧ c ≠ 0 ∧ StrAt m (i + 1) l

/-- A pointer to a NUL-terminated string: what its bytes and those behind it read as. -/
structure CString where
  cells : Nat → UInt8
  bytes : List UInt8
  ends : StrAt cells 0 bytes

/-- `strlen`. -/
def strlen (s : CString) : Nat := s.bytes.length

/-- `while (n-- && (*d++ = *s++));`: the counter afterwards and the bytes stored, in order. -/
def copyDown (s : Nat → UInt8) : Nat → Nat → Nat × List UInt8
  | 0, _ => (sizeMax, [])
  | n + 1, i =>
    if s i = 0 then (n, [0])
    else
      let (n', w) := copyDown s n (i + 1)
      (n', s i :: w)

/-- `while (n-- && (*d++ = 0));`: a stored 0 ends it. -/
def padDown : Nat → List UInt8
  | 0 => []
  | n + 1 =>
    let stored : UInt8 := 0
    if stored ≠ 0 then stored :: padDown n else [stored]

/-- `strncpy` of the C library: the bytes it stores from `d` on. -/
def strncpy (s : CString) (n : Nat) : List UInt8 :=
  let (n, w) := copyDown s.cells n 0
  w ++ padDown n

/-- `while (n && (*d++ = *src++)) n--;`. -/
def copyKernel (s : Nat → UInt8) : Nat → Nat → Nat × List UInt8
  | 0, _ => (0, [])
  | n + 1, i =>
    if s i = 0 then (n + 1, [0])
    else
      let (n', w) := copyKernel s n (i + 1)
      (n', s i :: w)

/-- `strncpy` of the kernel. -/
def kernelStrncpy (s : CString) (n : Nat) : List UInt8 :=
  let (n, w) := copyKernel s.cells n 0
  w ++ List.replicate n 0

/-- `while (n-- && *a && *a == *b) { a++; b++; }`: the counter and the index afterwards. -/
def matchDown (a b : Nat → UInt8) : Nat → Nat → Nat × Nat
  | 0, i => (sizeMax, i)
  | n + 1, i => if a i ≠ 0 ∧ a i = b i then matchDown a b n (i + 1) else (n, i)

/-- `(unsigned char)*a - (unsigned char)*b`. -/
def byteDiff (x y : UInt8) : Int := (x.toNat : Int) - y.toNat

/-- `strncmp` of the C library, from `a + i` and `b`. -/
def strncmpAt (a b : Nat → UInt8) (n : Nat) : Int :=
  let (n, i) := matchDown a b n 0
  if n = 0 then 0 else byteDiff (a i) (b i)

def strncmp (a b : CString) (n : Nat) : Int := strncmpAt a.cells b.cells n

/-- `while (n && *s1 && *s1 == *s2) { s1++; s2++; n--; }`. -/
def matchKernel (a b : Nat → UInt8) : Nat → Nat → Nat × Nat
  | 0, i => (0, i)
  | n + 1, i => if a i ≠ 0 ∧ a i = b i then matchKernel a b n (i + 1) else (n + 1, i)

/-- `strncmp` of the kernel. -/
def kernelStrncmp (a b : CString) (n : Nat) : Int :=
  let (n, i) := matchKernel a.cells b.cells n 0
  if n = 0 then 0 else byteDiff (a.cells i) (b.cells i)

/-- The loop of `strstr`, from `h + i`: where it stops, NULL being `none`. -/
def strstrFrom (h n : Nat → UInt8) (nlen : Nat) : Nat → Nat → Option (Option Nat)
  | 0, _ => none
  | fuel + 1, i =>
    if h i = 0 then some none
    else if strncmpAt (fun j => h (i + j)) n nlen = 0 then some (some i)
    else strstrFrom h n nlen fuel (i + 1)

/-- `strstr`: the offset of the result in the haystack. -/
def strstr (h n : CString) : Option (Option Nat) :=
  if n.cells 0 = 0 then some (some 0) else strstrFrom h.cells n.cells (strlen n) (strlen h + 1) 0

/-- `'='`. -/
def equals : UInt8 := 61

/-- `getenv`: the index of the entry it found, and the offset of the value in it. -/
def getenv (environ : List CString) (name : CString) : Option (Nat × Nat) :=
  let nlen := strlen name
  (environ.findIdx? fun e => strncmp e name nlen = 0 ∧ e.cells nlen = equals).map fun i => (i, nlen + 1)

/-! ### What ISO C asks -/

/-- The first `n` characters, then NULs up to `n`. -/
def padded (l : List UInt8) (n : Nat) : List UInt8 := l.take n ++ List.replicate (n - l.length) 0

/-- A result with the sign of the comparison of two strings of `unsigned char`. -/
def SignOf (r : Int) (l l' : List UInt8) : Prop := (r < 0 ↔ l < l') ∧ (0 < r ↔ l' < l)

/-- The first place the needle occurs at, or none when there is none. -/
def FirstAt (h n : List UInt8) : Option Nat → Prop
  | some i => n <+: h.drop i ∧ i ≤ h.length ∧ ∀ j < i, ¬n <+: h.drop j
  | none => ∀ j ≤ h.length, ¬n <+: h.drop j

/-- The text before the first `=` of an entry that has one. -/
def entryName (e : List UInt8) : Option (List UInt8) :=
  if equals ∈ e then some (e.takeWhile (· ≠ equals)) else none

/-- The value of the first entry of that name. -/
def valueOf (environ : List CString) (name : List UInt8) : Option (Nat × Nat) :=
  (environ.findIdx? fun e => entryName e.bytes = some name).map fun i => (i, name.length + 1)

/-- How many characters two strings have in common before they differ or one of them ends. -/
def commonLen : List UInt8 → List UInt8 → Nat
  | x :: l, y :: l' => if x = y then commonLen l l' + 1 else 0
  | _, _ => 0

theorem sizeMax_ne : sizeMax ≠ 0 := by decide

/-! ### Copying -/

theorem copyDown_spec {m : Nat → UInt8} : ∀ {l : List UInt8} {i : Nat} (n : Nat), StrAt m i l →
    copyDown m n i = if n ≤ l.length then (sizeMax, l.take n) else (n - l.length - 1, l ++ [0])
  | l, i, 0, _ => by
    rw [if_pos (Nat.zero_le _)]
    rfl
  | [], i, n + 1, h => by
    have h0 : m i = 0 := h
    rw [copyDown, if_pos h0, if_neg (by simp)]
    rfl
  | c :: l, i, n + 1, h => by
    obtain ⟨hc, hne, hl⟩ := h
    rw [copyDown, if_neg (by rw [hc]; exact hne), copyDown_spec n hl, hc, List.length_cons]
    by_cases hn : n ≤ l.length
    · rw [if_pos hn, if_pos (by omega)]
      rfl
    · rw [if_neg hn, if_neg (by omega)]
      simp only [List.cons_append, Nat.add_sub_add_right]

theorem padDown_eq (n : Nat) : padDown n = if n = 0 then [] else [0] := by
  cases n with
  | zero => rfl
  | succ n => simp [padDown]

/-- **The C library's `strncpy` stores `n` bytes only when the string and its NUL take all of them or all but one**:
padding stops after one NUL, and after a counter that ran out it stores one more. -/
theorem strncpy_iff (s : CString) (n : Nat) :
    strncpy s n = padded s.bytes n ↔ n = s.bytes.length + 1 ∨ n = s.bytes.length + 2 := by
  unfold strncpy padded
  rw [copyDown_spec n s.ends]
  by_cases hn : n ≤ s.bytes.length
  · rw [if_pos hn]
    simp only [padDown_eq]
    rw [if_neg sizeMax_ne, Nat.sub_eq_zero_of_le hn]
    constructor
    · intro h
      have := congrArg List.length h
      simp at this
    · omega
  · rw [if_neg hn, List.take_of_length_le (by omega)]
    simp only [padDown_eq]
    constructor
    · intro h
      have := congrArg List.length h
      simp only [List.length_append, List.length_replicate, List.length_singleton] at this
      split at this
      · simp only [List.length_nil] at this
        omega
      · simp only [List.length_singleton] at this
        omega
    · rintro (rfl | rfl)
      · rw [if_pos (by omega), Nat.add_sub_cancel_left]
        simp
      · rw [if_neg (by omega), Nat.add_sub_cancel_left]
        simp [List.replicate_succ]

theorem copyKernel_spec {m : Nat → UInt8} : ∀ {l : List UInt8} {i : Nat} (n : Nat), StrAt m i l →
    copyKernel m n i = if n ≤ l.length then (0, l.take n) else (n - l.length, l ++ [0])
  | l, i, 0, _ => by
    rw [if_pos (Nat.zero_le _)]
    rfl
  | [], i, n + 1, h => by
    have h0 : m i = 0 := h
    rw [copyKernel, if_pos h0, if_neg (by simp)]
    rfl
  | c :: l, i, n + 1, h => by
    obtain ⟨hc, hne, hl⟩ := h
    rw [copyKernel, if_neg (by rw [hc]; exact hne), copyKernel_spec n hl, hc, List.length_cons]
    by_cases hn : n ≤ l.length
    · rw [if_pos hn, if_pos (by omega)]
      rfl
    · rw [if_neg hn, if_neg (by omega)]
      simp only [List.cons_append, Nat.add_sub_add_right]

/-- **The kernel's `strncpy` stores `n` bytes only when there is nothing to pad**: the NUL it copies is not counted. -/
theorem kernelStrncpy_iff (s : CString) (n : Nat) : kernelStrncpy s n = padded s.bytes n ↔ n ≤ s.bytes.length := by
  unfold kernelStrncpy padded
  rw [copyKernel_spec n s.ends]
  by_cases hn : n ≤ s.bytes.length
  · rw [if_pos hn, Nat.sub_eq_zero_of_le hn]
    simp [hn]
  · rw [if_neg hn, List.take_of_length_le (by omega)]
    constructor
    · intro h
      have := congrArg List.length h
      simp only [List.length_append, List.length_replicate, List.length_singleton] at this
      omega
    · exact fun h => absurd h hn

/-! ### Comparing -/

theorem byteDiff_neg (x y : UInt8) : byteDiff x y < 0 ↔ x < y := by
  unfold byteDiff
  rw [UInt8.lt_iff_toNat_lt]
  omega

theorem byteDiff_pos (x y : UInt8) : 0 < byteDiff x y ↔ y < x := by
  unfold byteDiff
  rw [UInt8.lt_iff_toNat_lt]
  omega

theorem byteDiff_eq_zero (x y : UInt8) : byteDiff x y = 0 ↔ x = y := by
  unfold byteDiff
  rw [← UInt8.toNat_inj]
  omega

theorem signOf_refl (l : List UInt8) : SignOf 0 l l :=
  ⟨iff_of_false (by omega) (List.lt_irrefl l), iff_of_false (by omega) (List.lt_irrefl l)⟩

theorem signOf_cons {r : Int} {x : UInt8} {l l' : List UInt8} : SignOf r (x :: l) (x :: l') ↔ SignOf r l l' := by
  simp [SignOf]

theorem signOf_zero {l l' : List UInt8} : SignOf 0 l l' ↔ l = l' := by
  constructor
  · rintro ⟨h1, h2⟩
    refine List.le_antisymm ?_ ?_
    · exact List.not_lt.1 fun h => absurd (h2.2 h) (by omega)
    · exact List.not_lt.1 fun h => absurd (h1.2 h) (by omega)
  · rintro rfl
    exact signOf_refl _

theorem StrAt.cell {m : Nat → UInt8} {i : Nat} : ∀ {l : List UInt8}, StrAt m i l → m i = l.headD 0
  | [], h => h
  | _ :: _, h => h.1

theorem StrAt.tail {m : Nat → UInt8} {i : Nat} {c : UInt8} {l : List UInt8} (h : StrAt m i (c :: l)) :
    StrAt m (i + 1) l := h.2.2

theorem StrAt.drop {m : Nat → UInt8} : ∀ {l : List UInt8} {i : Nat} (j : Nat), StrAt m i l → j ≤ l.length →
    StrAt m (i + j) (l.drop j)
  | l, i, 0, h, _ => h
  | _ :: l, i, j + 1, h, hj => by
    have := StrAt.drop j h.tail (Nat.le_of_succ_le_succ hj)
    rwa [Nat.add_assoc, Nat.add_comm 1 j] at this

theorem StrAt.shift {m : Nat → UInt8} {k : Nat} : ∀ {l : List UInt8} {i : Nat}, StrAt m (k + i) l →
    StrAt (fun j => m (k + j)) i l
  | [], _, h => h
  | _ :: _, _, h => ⟨h.1, h.2.1, StrAt.shift h.2.2⟩

/-- Where both loops go on: neither string ends here and the characters agree. -/
theorem go_on_iff {a b : Nat → UInt8} {i : Nat} {l l' : List UInt8} (h : StrAt a i l) (h' : StrAt b i l') :
    (a i ≠ 0 ∧ a i = b i) ↔ commonLen l l' ≠ 0 := by
  cases l with
  | nil =>
    have h0 : a i = 0 := h
    exact iff_of_false (fun hc => hc.1 h0) (fun hc => hc rfl)
  | cons x l =>
    rw [h.1, h'.cell]
    cases l' with
    | nil => exact iff_of_false (fun hc => hc.1 hc.2) (fun hc => hc rfl)
    | cons y l' =>
      simp only [List.headD_cons, commonLen]
      by_cases hxy : x = y
      · rw [if_pos hxy]
        exact iff_of_true ⟨h.2.1, hxy⟩ (Nat.succ_ne_zero _)
      · rw [if_neg hxy]
        exact iff_of_false (fun hc => hxy hc.2) (fun hc => hc rfl)

/-- Two strings with a character in common at their start. -/
theorem cons_of_commonLen {l l' : List UInt8} (h : commonLen l l' ≠ 0) :
    ∃ x t t', l = x :: t ∧ l' = x :: t' ∧ commonLen l l' = commonLen t t' + 1 := by
  cases l with
  | nil => exact absurd rfl h
  | cons x l =>
    cases l' with
    | nil => exact absurd rfl h
    | cons y l' =>
      simp only [commonLen] at h ⊢
      by_cases hxy : x = y
      · subst hxy
        exact ⟨x, l, l', rfl, rfl, if_pos rfl⟩
      · rw [if_neg hxy] at h
        exact absurd rfl h

/-- Two strings that differ at once, or one of which is empty, compare as their first cells do. -/
theorem signOf_first {a b : Nat → UInt8} {i : Nat} {l l' : List UInt8} (h : StrAt a i l) (h' : StrAt b i l')
    (hc : commonLen l l' = 0) (n : Nat) : SignOf (byteDiff (a i) (b i)) (l.take (n + 1)) (l'.take (n + 1)) := by
  unfold SignOf
  rw [byteDiff_neg, byteDiff_pos]
  cases l with
  | nil =>
    have h0 : a i = 0 := h
    cases l' with
    | nil =>
      have h0' : b i = 0 := h'
      simp [h0, h0']
    | cons y l' =>
      have hpos : 0 < y := UInt8.pos_iff_ne_zero.2 h'.2.1
      simp [h0, h'.1, hpos]
  | cons x l =>
    have hpos : 0 < x := UInt8.pos_iff_ne_zero.2 h.2.1
    cases l' with
    | nil =>
      have h0' : b i = 0 := h'
      simp [h0', h.1, hpos]
    | cons y l' =>
      have hxy : x ≠ y := fun heq => by
        simp only [commonLen] at hc
        rw [if_pos heq] at hc
        cases hc
      simp [h.1, h'.1, List.cons_lt_cons_iff, hxy, Ne.symm hxy]

/-- **The kernel's `strncmp` has the sign of the comparison**, for all strings and counts. -/
theorem matchKernel_sign {a b : Nat → UInt8} : ∀ (n : Nat) {i : Nat} {l l' : List UInt8}, StrAt a i l → StrAt b i l' →
    SignOf (if (matchKernel a b n i).1 = 0 then 0
      else byteDiff (a (matchKernel a b n i).2) (b (matchKernel a b n i).2)) (l.take n) (l'.take n)
  | 0, _, _, _, _, _ => signOf_refl []
  | n + 1, i, l, l', h, h' => by
    rw [matchKernel]
    by_cases hc : commonLen l l' = 0
    · rw [if_neg (fun hgo => (go_on_iff h h').1 hgo hc), if_neg (Nat.succ_ne_zero n)]
      exact signOf_first h h' hc n
    · rw [if_pos ((go_on_iff h h').2 hc)]
      obtain ⟨x, t, t', rfl, rfl, -⟩ := cons_of_commonLen hc
      rw [List.take_succ_cons, List.take_succ_cons, signOf_cons]
      exact matchKernel_sign n h.tail h'.tail

theorem commonLen_self (l : List UInt8) : commonLen l l = l.length := by
  induction l with
  | nil => rfl
  | cons x l ih => rw [commonLen, if_pos rfl, ih, List.length_cons]

/-- The C library's loop and its result, one character at a time. -/
theorem matchDown_sign {a b : Nat → UInt8} : ∀ (n : Nat) {i : Nat} {l l' : List UInt8}, StrAt a i l → StrAt b i l' →
    (SignOf (if (matchDown a b n i).1 = 0 then 0
      else byteDiff (a (matchDown a b n i).2) (b (matchDown a b n i).2)) (l.take n) (l'.take n) ↔
        l = l' ∨ commonLen l l' + 1 ≠ n ∧ commonLen l l' ≠ n)
  | 0, i, l, l', h, h' => by
    -- the counter ran out: the characters behind the first `n` are compared
    rw [matchDown, if_neg sizeMax_ne]
    by_cases hc : commonLen l l' = 0
    · have hiff : l = l' ↔ a i = b i := by
        constructor
        · rintro rfl
          rw [h.cell, h'.cell]
        · intro hab
          have h0 : a i = 0 := by
            by_contra h0
            exact (go_on_iff h h').1 ⟨h0, hab⟩ hc
          cases l with
          | cons x l => exact absurd (h.1.symm.trans h0) h.2.1
          | nil =>
            cases l' with
            | cons y l' => exact absurd (h'.1.symm.trans (hab.symm.trans h0)) h'.2.1
            | nil => rfl
      rw [hiff, hc, ← byteDiff_eq_zero]
      simp only [List.take_zero, SignOf, List.lt_irrefl, iff_false, not_lt]
      omega
    · obtain ⟨-, hab⟩ := (go_on_iff h h').2 hc
      rw [(byteDiff_eq_zero _ _).2 hab]
      exact iff_of_true (signOf_refl []) (.inr ⟨Nat.succ_ne_zero _, hc⟩)
  | n + 1, i, l, l', h, h' => by
    rw [matchDown]
    by_cases hc : commonLen l l' = 0
    · rw [if_neg (fun hgo => (go_on_iff h h').1 hgo hc), hc]
      cases n with
      | zero =>
        -- a difference in the last character allowed is taken for equality
        rw [if_pos rfl, signOf_zero]
        simp only [Nat.zero_add, ne_eq, not_true_eq_false, false_and, or_false]
        constructor
        · intro heq
          cases l with
          | nil =>
            cases l' with
            | nil => rfl
            | cons y l' => simp at heq
          | cons x l =>
            cases l' with
            | nil => simp at heq
            | cons y l' =>
              have hxy : x = y := by simpa using heq
              rw [commonLen, if_pos hxy] at hc
              cases hc
        · rintro rfl
          rfl
      | succ n =>
        rw [if_neg (Nat.succ_ne_zero n)]
        exact iff_of_true (signOf_first h h' hc _) (.inr ⟨by omega, by omega⟩)
    · rw [if_pos ((go_on_iff h h').2 hc)]
      obtain ⟨x, t, t', rfl, rfl, hlen⟩ := cons_of_commonLen hc
      rw [List.take_succ_cons, List.take_succ_cons, signOf_cons, matchDown_sign n h.tail h'.tail, hlen]
      simp

/-- **The C library's `strncmp` has the sign of the comparison unless the strings first differ in the last character it may
look at or in the one behind it.** -/
theorem strncmp_iff (a b : CString) (n : Nat) :
    SignOf (strncmp a b n) (a.bytes.take n) (b.bytes.take n) ↔
      a.bytes = b.bytes ∨ commonLen a.bytes b.bytes + 1 ≠ n ∧ commonLen a.bytes b.bytes ≠ n :=
  matchDown_sign n a.ends b.ends

/-- When the C library takes two strings for equal over the length of the second: they are equal, or they first differ in
the last character. -/
theorem matchDown_zero {a b : Nat → UInt8} : ∀ (l' : List UInt8) {i : Nat} {l : List UInt8}, StrAt a i l → StrAt b i l' →
    ((if (matchDown a b l'.length i).1 = 0 then 0
      else byteDiff (a (matchDown a b l'.length i).2) (b (matchDown a b l'.length i).2)) = 0 ↔
        l = l' ∨ commonLen l l' + 1 = l'.length)
  | [], i, l, h, h' => by
    rw [List.length_nil, matchDown, if_neg sizeMax_ne, byteDiff_eq_zero, h.cell]
    have h0 : b i = 0 := h'
    cases l with
    | nil => simp [h0]
    | cons x l =>
      have := h.2.1
      simp [h0, this]
  | y :: l', i, l, h, h' => by
    rw [List.length_cons, matchDown]
    by_cases hc : commonLen l (y :: l') = 0
    · rw [if_neg (fun hgo => (go_on_iff h h').1 hgo hc), hc]
      have hne : l ≠ y :: l' := by
        rintro rfl
        rw [commonLen_self] at hc
        cases hc
      by_cases hl : l'.length = 0
      · rw [if_pos hl, hl]
        simp
      · rw [if_neg hl, byteDiff_eq_zero]
        refine iff_of_false (fun hab => ?_) ?_
        · refine (go_on_iff h h').1 ⟨?_, hab⟩ hc
          rw [hab, h'.1]
          exact h'.2.1
        · rintro (heq | heq)
          · exact hne heq
          · omega
    · rw [if_pos ((go_on_iff h h').2 hc)]
      obtain ⟨x, t, t', rfl, heq, hlen⟩ := cons_of_commonLen hc
      cases heq
      rw [matchDown_zero l' h.tail h'.tail, hlen]
      simp

/-! ### Searching -/

/-- Where the loop of `strstr` stops: a place from which the haystack is the needle, or differs from it first in the
needle's last character. -/
def Near (h n : List UInt8) (i : Nat) : Prop := h.drop i = n ∨ commonLen (h.drop i) n + 1 = n.length

theorem strncmpAt_zero {h : CString} {n : CString} {i : Nat} (hi : i ≤ h.bytes.length) :
    strncmpAt (fun j => h.cells (i + j)) n.cells (strlen n) = 0 ↔ Near h.bytes n.bytes i := by
  have hstr : StrAt (fun j => h.cells (i + j)) 0 (h.bytes.drop i) := by
    have := StrAt.drop i h.ends hi
    rw [Nat.zero_add] at this
    exact StrAt.shift this
  exact matchDown_zero n.bytes hstr n.ends

theorem cells_zero_iff {h : CString} {i : Nat} (hi : i ≤ h.bytes.length) : h.cells i = 0 ↔ i = h.bytes.length := by
  have hstr := StrAt.drop i h.ends hi
  rw [Nat.zero_add] at hstr
  cases hd : h.bytes.drop i with
  | nil =>
    have hle := List.drop_eq_nil_iff.1 hd
    rw [hd] at hstr
    exact iff_of_true hstr (by omega)
  | cons c l =>
    rw [hd] at hstr
    refine iff_of_false ?_ ?_
    · rw [hstr.1]
      exact hstr.2.1
    · rintro rfl
      rw [List.drop_length] at hd
      cases hd

/-- **The loop of `strstr` ends at the first near place**, or finds none before the end. -/
theorem strstrFrom_spec (h n : CString) : ∀ (fuel i : Nat), h.bytes.length < fuel + i → i ≤ h.bytes.length →
    ∃ r, strstrFrom h.cells n.cells (strlen n) fuel i = some r ∧
      (∀ k, r = some k → i ≤ k ∧ k < h.bytes.length ∧ Near h.bytes n.bytes k ∧ ∀ j, i ≤ j → j < k → ¬Near h.bytes n.bytes j) ∧
      (r = none → ∀ j, i ≤ j → j < h.bytes.length → ¬Near h.bytes n.bytes j)
  | 0, i, hfuel, hi => by omega
  | fuel + 1, i, hfuel, hi => by
    rw [strstrFrom]
    by_cases hend : h.cells i = 0
    · rw [if_pos hend]
      have := (cells_zero_iff hi).1 hend
      refine ⟨none, rfl, fun k hk => ?_, fun _ j hj hjl => by omega⟩
      cases hk
    rw [if_neg hend]
    have hlt : i < h.bytes.length := Nat.lt_of_le_of_ne hi fun heq => hend ((cells_zero_iff hi).2 heq)
    by_cases hnear : strncmpAt (fun j => h.cells (i + j)) n.cells (strlen n) = 0
    · rw [if_pos hnear]
      refine ⟨some i, rfl, fun k hk => ?_, fun hk => by cases hk⟩
      cases hk
      exact ⟨Nat.le_refl _, hlt, (strncmpAt_zero hi).1 hnear, fun j hj hjk => by omega⟩
    · rw [if_neg hnear]
      have hno : ¬Near h.bytes n.bytes i := fun hc => hnear ((strncmpAt_zero hi).2 hc)
      obtain ⟨r, hr, hsome, hnone⟩ := strstrFrom_spec h n fuel (i + 1) (by omega) hlt
      refine ⟨r, hr, fun k hk => ?_, fun hk j hj hjl => ?_⟩
      · obtain ⟨hik, hkl, hk', hbefore⟩ := hsome k hk
        refine ⟨by omega, hkl, hk', fun j hj hjk => ?_⟩
        rcases Nat.eq_or_lt_of_le hj with rfl | hlt'
        · exact hno
        · exact hbefore j hlt' hjk
      · rcases Nat.eq_or_lt_of_le hj with rfl | hlt'
        · exact hno
        · exact hnone hk j hlt' hjl

/-- What `strstr` should say of these two strings. -/
def StrstrLaw (h n : CString) : Prop := ∃ r, strstr h n = some r ∧ FirstAt h.bytes n.bytes r

theorem prefix_commonLen : ∀ {l l' : List UInt8}, l' <+: l → commonLen l l' = l'.length
  | [], [], _ => rfl
  | _ :: _, [], _ => rfl
  | l, y :: l', h => by
    obtain ⟨t, rfl⟩ := h
    rw [List.cons_append, commonLen, if_pos rfl, prefix_commonLen (List.prefix_append l' t), List.length_cons]

/-- **The C library's `strstr` is right exactly for an empty needle, or when the needle occurs at most at the very end of the
haystack and no place before its first occurrence agrees with it in all but the last character.** -/
theorem strstrLaw_iff (h n : CString) : StrstrLaw h n ↔ n.bytes = [] ∨
    (∀ i, n.bytes <+: h.bytes.drop i → h.bytes.drop i = n.bytes) ∧
      ∀ i < h.bytes.length, commonLen (h.bytes.drop i) n.bytes + 1 = n.bytes.length →
        ∃ j < i, n.bytes <+: h.bytes.drop j := by
  unfold StrstrLaw strstr
  by_cases hnil : n.bytes = []
  · have h0 : n.cells 0 = 0 := by
      have := n.ends
      rwa [hnil] at this
    rw [if_pos h0]
    exact iff_of_true ⟨some 0, rfl, by rw [hnil]; exact List.nil_prefix, Nat.zero_le _, fun j hj => by omega⟩ (.inl hnil)
  have hpos : 0 < n.bytes.length := List.length_pos_iff.2 hnil
  have h0 : n.cells 0 ≠ 0 := fun h0 => by
    have := (cells_zero_iff (Nat.zero_le _)).1 h0
    omega
  rw [if_neg h0, or_iff_right hnil]
  obtain ⟨r, hr, hsome, hnone⟩ := strstrFrom_spec h n (strlen h + 1) 0 (Nat.lt_succ_self _) (Nat.zero_le _)
  rw [hr]
  have hlt : ∀ {i}, n.bytes <+: h.bytes.drop i → i < h.bytes.length := fun {i} hp => by
    have := hp.length_le
    rw [List.length_drop] at this
    omega
  have hnot : ∀ {i}, n.bytes <+: h.bytes.drop i → commonLen (h.bytes.drop i) n.bytes + 1 ≠ n.bytes.length :=
    fun {i} hp => by
      rw [prefix_commonLen hp]
      omega
  constructor
  · rintro ⟨r', heq, hfirst⟩
    cases heq
    cases r with
    | none =>
      refine ⟨fun i hp => absurd hp (hfirst i (hlt hp).le), fun i hi hc => ?_⟩
      exact absurd (.inr hc) (hnone rfl i (Nat.zero_le _) hi)
    | some k =>
      obtain ⟨hp, -, hbefore⟩ := hfirst
      obtain ⟨-, -, hnear, hfar⟩ := hsome k rfl
      have hend : h.bytes.drop k = n.bytes := hnear.resolve_right (hnot hp)
      refine ⟨fun i hi => ?_, fun i hi hc => ?_⟩
      · -- an occurrence is not before the first, and there is no room for one behind it
        have hki : k ≤ i := Nat.le_of_not_lt fun hik => hbefore i hik hi
        have hlen := hi.length_le
        have hlen' := congrArg List.length hend
        have hil := hlt hi
        rw [List.length_drop] at hlen hlen'
        have : i = k := by omega
        rw [this, hend]
      · refine ⟨k, Nat.lt_of_not_le fun hik => ?_, hp⟩
        rcases Nat.eq_or_lt_of_le hik with rfl | hik'
        · exact hnot hp hc
        · exact hfar i (Nat.zero_le _) hik' (.inr hc)
  · rintro ⟨hends, hmiss⟩
    refine ⟨r, rfl, ?_⟩
    cases r with
    | none => exact fun j hj hp => hnone rfl j (Nat.zero_le _) (hlt hp) (.inl (hends j hp))
    | some k =>
      obtain ⟨-, hk, hnear, hfar⟩ := hsome k rfl
      have hbefore : ∀ j < k, ¬n.bytes <+: h.bytes.drop j := fun j hj hp =>
        hfar j (Nat.zero_le _) hj (.inl (hends j hp))
      rcases hnear with heq | hc
      · exact ⟨by rw [heq], hk.le, hbefore⟩
      · obtain ⟨j, hj, hp⟩ := hmiss k hk hc
        exact absurd hp (hbefore j hj)

/-! ### The environment -/

/-- An entry `getenv` takes for `name`: it differs from it first in the last character, and has an `=` behind that one. -/
def NearEntry (e name : CString) : Prop :=
  commonLen e.bytes name.bytes + 1 = name.bytes.length ∧ e.cells name.bytes.length = equals

instance (e name : CString) : Decidable (NearEntry e name) := inferInstanceAs (Decidable (_ ∧ _))

theorem strncmp_zero (a b : CString) : strncmp a b (strlen b) = 0 ↔
    a.bytes = b.bytes ∨ commonLen a.bytes b.bytes + 1 = b.bytes.length := matchDown_zero b.bytes a.ends b.ends

theorem getenv_match (e name : CString) :
    (strncmp e name (strlen name) = 0 ∧ e.cells (strlen name) = equals) ↔ NearEntry e name := by
  rw [strncmp_zero]
  constructor
  · rintro ⟨heq | hc, hcell⟩
    · -- the whole entry is the name: there is a NUL where the `=` should be
      have h0 := (cells_zero_iff (h := e) (i := strlen name) (by rw [heq]; exact Nat.le_refl _)).2 (by rw [heq]; rfl)
      rw [h0] at hcell
      exact absurd hcell (by decide)
    · exact ⟨hc, hcell⟩
  · rintro ⟨hc, hcell⟩
    exact ⟨.inr hc, hcell⟩

theorem prefix_entryName {e name : List UInt8} (h : entryName e = some name) : name <+: e := by
  unfold entryName at h
  by_cases hmem : equals ∈ e
  · rw [if_pos hmem] at h
    cases h
    exact List.takeWhile_prefix _
  · rw [if_neg hmem] at h
    cases h

/-- **`getenv` never returns the value of the variable it is asked for**: it is right exactly when there is none to return
and no entry's name differs from the one asked for in its last character alone. -/
theorem getenv_iff (environ : List CString) (name : CString) : getenv environ name = valueOf environ name.bytes ↔
    ∀ e ∈ environ, entryName e.bytes ≠ some name.bytes ∧ ¬NearEntry e name := by
  have hdisj : ∀ e : CString, entryName e.bytes = some name.bytes → ¬NearEntry e name := fun e he hnear => by
    have := prefix_commonLen (prefix_entryName he)
    have := hnear.1
    omega
  have hmatch : (fun e : CString => decide (strncmp e name (strlen name) = 0 ∧ e.cells (strlen name) = equals)) =
      fun e => decide (NearEntry e name) := funext fun e => decide_eq_decide.2 (getenv_match e name)
  unfold getenv valueOf
  dsimp only
  rw [hmatch]
  constructor
  · intro heq
    cases hf : environ.findIdx? fun e => NearEntry e name with
    | none =>
      cases hs : environ.findIdx? fun e => entryName e.bytes = some name.bytes with
      | none =>
        intro e he
        have h1 := List.findIdx?_eq_none_iff.1 hf e he
        have h2 := List.findIdx?_eq_none_iff.1 hs e he
        exact ⟨by simpa using h2, by simpa using h1⟩
      | some i =>
        rw [hf, hs] at heq
        cases heq
    | some i =>
      rw [hf] at heq
      cases hs : environ.findIdx? fun e => entryName e.bytes = some name.bytes with
      | none =>
        rw [hs] at heq
        cases heq
      | some j =>
        rw [hs] at heq
        have hij : i = j := by
          simp only [Option.map_some, Option.some.injEq, Prod.mk.injEq] at heq
          exact heq.1
        subst hij
        obtain ⟨h1, h2, -⟩ := List.findIdx?_eq_some_iff_getElem.1 hf
        obtain ⟨h3, h4, -⟩ := List.findIdx?_eq_some_iff_getElem.1 hs
        exact absurd (by simpa using h2) (hdisj _ (by simpa using h4))
  · intro hall
    have h1 : (environ.findIdx? fun e => NearEntry e name) = none :=
      List.findIdx?_eq_none_iff.2 fun e he => by simpa using (hall e he).2
    have h2 : (environ.findIdx? fun e => entryName e.bytes = some name.bytes) = none :=
      List.findIdx?_eq_none_iff.2 fun e he => by simpa using (hall e he).1
    rw [h1, h2]
    rfl

/-! ### The functions together -/

/-- **What the bounded string functions do, each with the inputs on which it does what ISO C asks**: the kernel's
`strncmp` always does; its `strncpy` and the C library's functions only on these. -/
theorem boundedStrings (a b : CString) (n : Nat) (environ : List CString) :
    (kernelStrncpy a n = padded a.bytes n ↔ n ≤ a.bytes.length) ∧
      (strncpy a n = padded a.bytes n ↔ n = a.bytes.length + 1 ∨ n = a.bytes.length + 2) ∧
      SignOf (kernelStrncmp a b n) (a.bytes.take n) (b.bytes.take n) ∧
      (SignOf (strncmp a b n) (a.bytes.take n) (b.bytes.take n) ↔
        a.bytes = b.bytes ∨ commonLen a.bytes b.bytes + 1 ≠ n ∧ commonLen a.bytes b.bytes ≠ n) ∧
      (StrstrLaw a b ↔ b.bytes = [] ∨
        (∀ i, b.bytes <+: a.bytes.drop i → a.bytes.drop i = b.bytes) ∧
          ∀ i < a.bytes.length, commonLen (a.bytes.drop i) b.bytes + 1 = b.bytes.length →
            ∃ j < i, b.bytes <+: a.bytes.drop j) ∧
      (getenv environ b = valueOf environ b.bytes ↔
        ∀ e ∈ environ, entryName e.bytes ≠ some b.bytes ∧ ¬NearEntry e b) :=
  ⟨kernelStrncpy_iff a n, strncpy_iff a n, matchKernel_sign n a.ends b.ends, strncmp_iff a b n, strstrLaw_iff a b,
    getenv_iff environ b⟩

theorem strAt_getD {m : Nat → UInt8} : ∀ {l : List UInt8} {i : Nat}, (∀ j, m (i + j) = l.getD j 0) → 0 ∉ l → StrAt m i l
  | [], i, h, _ => h 0
  | c :: l, i, h, hno => by
    obtain ⟨hc, hl⟩ := not_or.1 (mt List.mem_cons.2 hno)
    refine ⟨h 0, fun heq => hc heq.symm, strAt_getD (fun j => ?_) hl⟩
    rw [Nat.add_assoc, Nat.add_comm 1 j, h]
    rfl

/-- A string with nothing but NULs behind it. -/
def CString.ofList (l : List UInt8) (h : 0 ∉ l) : CString :=
  ⟨fun i => l.getD i 0, l, strAt_getD (fun j => by rw [Nat.zero_add]) h⟩

/-- `"a"`, `"b"` and `"ab"`, and an environment of `A=1`. -/
def strA : CString := .ofList [97] (by decide)
def strB : CString := .ofList [98] (by decide)
def strAB : CString := .ofList [97, 98] (by decide)
def environA : List CString := [.ofList [97, 61, 49] (by decide)]

/-- Copying `"a"` the kernel stores four bytes for a limit of three and the C library two for a limit of one; `"a"` and `"b"`
are equal over one character, the `"a"` of `"ab"` is found at the `b`, and `a` is not found in `a=1`. -/
theorem not_boundedStrings :
    kernelStrncpy strA 3 ≠ padded strA.bytes 3 ∧ strncpy strA 1 ≠ padded strA.bytes 1 ∧
      ¬SignOf (strncmp strA strB 1) (strA.bytes.take 1) (strB.bytes.take 1) ∧ ¬StrstrLaw strAB strA ∧
      getenv environA strA ≠ valueOf environA strA.bytes := by
  refine ⟨by decide, by decide, fun h => ?_, ?_, by decide⟩
  · have heq : strncmp strA strB 1 = 0 := by decide
    rw [heq] at h
    exact absurd (signOf_zero.1 h) (by decide)
  · rintro ⟨r, hr, hfirst⟩
    have heq : strstr strAB strA = some (some 1) := by decide
    rw [heq] at hr
    cases hr
    exact hfirst.2.2 0 (by decide) ⟨[98], rfl⟩

end Libc
end Pico
