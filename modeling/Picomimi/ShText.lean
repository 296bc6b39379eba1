import Picomimi.Sh
/-!
# ShText — texts that a pass of the shell leaves alone

`expand_vars` copies what has no `\`, quote, backtick or `$` in it and takes single quotes off (`Unquotes`); the tokeniser
reads a word up to a blank as one argument (`Tokens`).
-/
namespace Pico
namespace Sh

open Lib

variable {ω : Type} {W : World ω} {σ : State ω} {fuel room nc : Nat} {c d : Char} {s t u p q : Text} {cur : Cmd}
  {cmds : List Cmd}

/-! ## `expand_vars` -/

/-- `expand_vars` copies the character. -/
def isLit (c : Char) : Bool := c ≠ '\\' && c ≠ '\'' && c ≠ backtick && c ≠ '$'

/-- Behind a `$` this text makes it a bare one. -/
def isBare : Text → Bool
  | [] => true
  | d :: _ => !(d = '(' || d = '{' || d = '?' || d = '$' || d = '#' || isDigit d || isNameStart d)

theorem expandStep_lit (h : isLit c = true) : expandStep W c t = pure ([c], t) := by
  obtain ⟨⟨⟨h1, h2⟩, h3⟩, h4⟩ : ((c ≠ '\\' ∧ c ≠ '\'') ∧ c ≠ backtick) ∧ c ≠ '$' := by simpa [isLit] using h
  rw [expandStep, if_neg (fun h => h1 h.1), if_neg h2, if_neg h3, if_neg h4]

theorem expandDollar_bare (h : isBare t = true) : expandDollar W t = pure (['$'], t) := by
  cases t with
  | nil => rfl
  | cons d t =>
    obtain ⟨⟨⟨⟨⟨⟨h1, h2⟩, h3⟩, h4⟩, h5⟩, h6⟩, h7⟩ :
        (((((d ≠ '(' ∧ d ≠ '{') ∧ d ≠ '?') ∧ d ≠ '$') ∧ d ≠ '#') ∧ isDigit d = false) ∧ isNameStart d = false := by
      simpa [isBare, not_or] using h
    have h0 : d ≠ '0' := by
      rintro rfl
      exact absurd h6 (by decide)
    rw [expandDollar, if_neg h1, if_neg h2, if_neg h3, if_neg h4, if_neg h5, if_neg h0, if_neg (by simp [h6]),
      if_neg (by simp [h7])]

theorem expandStep_dollar : expandStep W '$' t = expandDollar W t := by
  rw [expandStep, if_neg (fun h => absurd h.1 (by decide)), if_neg (by decide), if_neg (by decide), if_pos rfl]

theorem readUntil_append (stop : Char) (h : stop ∉ q) : ∀ {n}, q.length ≤ n → readUntil stop n (q ++ stop :: t) = (q, t) := by
  induction q with
  | nil =>
    intro n _
    cases n <;> simp [readUntil]
  | cons c q ih =>
    intro n hn
    obtain ⟨hc, hq⟩ : stop ≠ c ∧ stop ∉ q := by simpa using h
    obtain ⟨n, rfl⟩ : ∃ m, n = m + 1 := ⟨n - 1, by simp only [List.length_cons] at hn; omega⟩
    rw [List.cons_append, readUntil, if_neg (Ne.symm hc), ih hq (by simpa using hn)]

theorem readUntil_length (stop : Char) : ∀ (n : Nat) (t : Text),
    (readUntil stop n t).1.length + (readUntil stop n t).2.length ≤ t.length
  | 0, [] => Nat.le_refl _
  | _ + 1, [] => Nat.le_refl _
  | 0, c :: t => by
    rw [readUntil]
    split <;> simp
  | n + 1, c :: t => by
    have ih := readUntil_length stop n t
    rw [readUntil]
    split
    · simp
    · simp only [List.length_cons]
      omega

theorem readParens_length : ∀ (n d : Nat) (t : Text), (readParens n d t).2.length ≤ t.length
  | 0, _, [] => Nat.le_refl _
  | _ + 1, _, [] => Nat.le_refl _
  | 0, _, c :: t => Nat.le_refl _
  | n + 1, d, c :: t => by
    rw [readParens]
    split
    · simp
    · exact Nat.le_succ_of_le (readParens_length n _ t)

theorem readUntil_le (stop : Char) : ∀ (n : Nat) (t : Text), (readUntil stop n t).1.length ≤ n
  | 0, [] => Nat.le_refl _
  | _ + 1, [] => Nat.zero_le _
  | 0, c :: t => Nat.le_refl _
  | n + 1, c :: t => by
    rw [readUntil]
    split
    · exact Nat.zero_le _
    · exact Nat.succ_le_succ (readUntil_le stop n t)

theorem readParens_le : ∀ (n d : Nat) (t : Text), (readParens n d t).1.length ≤ n
  | 0, _, [] => Nat.le_refl _
  | _ + 1, _, [] => Nat.zero_le _
  | 0, _, c :: t => Nat.le_refl _
  | n + 1, d, c :: t => by
    rw [readParens]
    split
    · exact Nat.zero_le _
    · exact Nat.succ_le_succ (readParens_le n _ t)

theorem expandStep_quote (h : '\'' ∉ q) : expandStep W '\'' (q ++ '\'' :: t) = pure (q, t) := by
  rw [expandStep, if_neg (fun h => absurd h.1 (by decide)), if_pos rfl, readUntil_append _ h (by simp)]

theorem expandLoop_cons (hroom : room ≠ 0) (h : expandStep W c t = pure (p, q)) :
    expandLoop W (fuel + 1) room (c :: t) = (p.take room ++ ·) <$> expandLoop W fuel (room - p.length) q := by
  rw [expandLoop, if_neg hroom, h, pure_bind]
  exact bind_pure_comp (p.take room ++ ·) _

/-- `t` is `u` with single quotes around some of its parts, and has nothing else `expand_vars` would expand. -/
inductive Unquotes : Text → Text → Prop
  | nil : Unquotes [] []
  | lit {c : Char} {t u : Text} : isLit c = true → Unquotes t u → Unquotes (c :: t) (c :: u)
  | quote {q t u : Text} : '\'' ∉ q → Unquotes t u → Unquotes ('\'' :: (q ++ '\'' :: t)) (q ++ u)

theorem Unquotes.append {t' u' : Text} (h : Unquotes t u) (h' : Unquotes t' u') : Unquotes (t ++ t') (u ++ u') := by
  induction h with
  | nil => exact h'
  | lit hc _ ih => exact .lit hc ih
  | quote hq _ ih =>
    simp only [List.cons_append, List.append_assoc]
    exact .quote hq ih

theorem Unquotes.lits (h : ∀ c ∈ t, isLit c = true) : Unquotes t t := by
  induction t with
  | nil => exact .nil
  | cons c t ih => exact .lit (h c List.mem_cons_self) (ih fun c hc => h c (List.mem_cons_of_mem _ hc))

theorem Unquotes.quoted (h : '\'' ∉ q) : Unquotes ('\'' :: (q ++ ['\''])) q := by
  simpa using Unquotes.quote h Unquotes.nil

theorem Unquotes.length_le (h : Unquotes t u) : u.length ≤ t.length := by
  induction h with
  | nil => exact Nat.le_refl _
  | lit _ _ ih => simpa using ih
  | quote _ _ ih =>
    simp only [List.length_append, List.length_cons]
    omega

/-- **Single quotes are taken off**, and nothing else is done. -/
theorem Unquotes.expandLoop (h : Unquotes t u) : ∀ {fuel room}, t.length ≤ fuel → u.length ≤ room →
    expandLoop W fuel room t = pure u := by
  induction h with
  | nil =>
    intro fuel room _ _
    cases fuel <;> rfl
  | @lit c t u hc _ ih =>
    intro fuel room hf hr
    obtain ⟨fuel, rfl⟩ : ∃ m, fuel = m + 1 := ⟨fuel - 1, by simp only [List.length_cons] at hf; omega⟩
    simp only [List.length_cons, Nat.add_le_add_iff_right] at hf hr
    rw [expandLoop_cons (by omega) (expandStep_lit hc), ih hf (by simp only [List.length_singleton]; omega), map_pure,
      List.take_of_length_le (by simp only [List.length_singleton]; omega)]
    rfl
  | @quote q t u hq _ ih =>
    intro fuel room hf hr
    simp only [List.length_cons, List.length_append] at hf hr
    obtain ⟨fuel, rfl⟩ : ∃ m, fuel = m + 1 := ⟨fuel - 1, by omega⟩
    by_cases hroom : room = 0
    · obtain ⟨rfl, rfl⟩ : q = [] ∧ u = [] := ⟨List.eq_nil_of_length_eq_zero (by omega), List.eq_nil_of_length_eq_zero (by omega)⟩
      rw [Sh.expandLoop, if_pos hroom]
      rfl
    rw [expandLoop_cons hroom (expandStep_quote hq), ih (by omega) (by omega), map_pure, List.take_of_length_le (by omega)]

/-! ## Arguments that expand to themselves -/

/-- A character that neither ends a word nor quotes anything in it. -/
def isTok (c : Char) : Bool := !endsWord c && c ≠ '\'' && c ≠ '"' && c ≠ '\\'

/-- **An inert text**: characters of a word without backticks, and every `$` a bare one. -/
def inert : Text → Bool
  | [] => true
  | c :: t => isTok c && c ≠ backtick && (c ≠ '$' || isBare t) && inert t

theorem inert_cons : inert (c :: t) = true ↔ isTok c = true ∧ c ≠ backtick ∧ (c = '$' → isBare t = true) ∧ inert t = true := by
  by_cases h : c = '$' <;> simp [inert, h, and_assoc]

theorem isTok_cases (h : isTok c = true) : endsWord c = false ∧ c ≠ '\'' ∧ c ≠ '"' ∧ c ≠ '\\' := by
  simpa [isTok, and_assoc] using h

theorem inert_isTok (h : inert t = true) : ∀ c ∈ t, isTok c = true := by
  induction t with
  | nil => exact List.forall_mem_nil _
  | cons c t ih =>
    obtain ⟨hc, -, -, ht⟩ := inert_cons.1 h
    exact List.forall_mem_cons.2 ⟨hc, ih ht⟩

theorem inert_backtick (h : inert t = true) : backtick ∉ t := by
  induction t with
  | nil => exact List.not_mem_nil
  | cons c t ih =>
    obtain ⟨-, hc, -, ht⟩ := inert_cons.1 h
    exact fun hmem => (List.mem_cons.1 hmem).elim (fun heq => hc heq.symm) (ih ht)

/-- **An inert text expands to itself.** -/
theorem expandLoop_inert (h : inert t = true) : ∀ {fuel room}, t.length ≤ fuel → t.length ≤ room →
    expandLoop W fuel room t = pure t := by
  induction t with
  | nil =>
    intro fuel room _ _
    cases fuel <;> rfl
  | cons c t ih =>
    intro fuel room hf hr
    obtain ⟨hc, hback, hdollar, ht⟩ := inert_cons.1 h
    obtain ⟨fuel, rfl⟩ : ∃ m, fuel = m + 1 := ⟨fuel - 1, by simp only [List.length_cons] at hf; omega⟩
    simp only [List.length_cons, Nat.add_le_add_iff_right] at hf hr
    have hstep : expandStep W c t = pure ([c], t) := by
      by_cases hd : c = '$'
      · subst hd
        rw [expandStep_dollar, expandDollar_bare (hdollar rfl)]
      · obtain ⟨-, hq, -, hb⟩ := isTok_cases hc
        exact expandStep_lit (by simp [isLit, hd, hq, hb, hback])
    rw [expandLoop_cons (by omega) hstep, ih ht hf (by simp only [List.length_singleton]; omega), map_pure,
      List.take_of_length_le (by simp only [List.length_singleton]; omega)]
    rfl

theorem shellExpand_inert (h : inert t = true) (hlen : t.length < maxLine) : shellExpand W t = pure t :=
  expandLoop_inert h (Nat.le_refl _) (Nat.le_sub_one_of_lt hlen)

/-! ## `tokenize` -/

theorem endsWord_cases (h : endsWord c = true) : c ≠ '\'' ∧ c ≠ '"' ∧ c ≠ '\\' := by
  refine ⟨?_, ?_, ?_⟩ <;>
  · rintro rfl
    exact absurd h (by decide)

theorem readWord_plain {n : Nat} : readWord .plain (n + 1) (c :: t) =
    if c = '\'' then readWord .single (n + 1) t
    else if c = '"' then readWord .double (n + 1) t
    else if c = '\\' then
      match t with
      | [] => push c (readWord .plain n [])
      | d :: t => push d (readWord .plain n t)
    else if endsWord c then ([], c :: t)
    else push c (readWord .plain n t) := by
  cases t <;> rfl

/-- A character of a word that is read outside of quotes. -/
theorem readWord_tok (h : isTok c = true) {n : Nat} : readWord .plain (n + 1) (c :: t) = push c (readWord .plain n t) := by
  obtain ⟨h1, h2, h3, h4⟩ := isTok_cases h
  rw [readWord_plain, if_neg h2, if_neg h3, if_neg h4, if_neg (by simp [h1])]

theorem readWord_ends (h : ∀ d q, p = d :: q → endsWord d = true) : ∀ n, readWord .plain n p = ([], p) := by
  intro n
  cases p with
  | nil => cases n <;> rfl
  | cons d q =>
    have hd := h d q rfl
    obtain ⟨h1, h2, h3⟩ := endsWord_cases hd
    cases n with
    | zero => rfl
    | succ n => rw [readWord_plain, if_neg h1, if_neg h2, if_neg h3, if_pos hd]

/-- **A word is read whole** when nothing in it is special and the text behind it ends it. -/
theorem readWord_append (h : ∀ c ∈ t, isTok c = true) (hp : ∀ d q, p = d :: q → endsWord d = true) :
    ∀ {n}, t.length ≤ n → readWord .plain n (t ++ p) = (t, p) := by
  induction t with
  | nil =>
    intro n _
    exact readWord_ends hp n
  | cons c t ih =>
    intro n hn
    obtain ⟨n, rfl⟩ : ∃ m, n = m + 1 := ⟨n - 1, by simp only [List.length_cons] at hn; omega⟩
    rw [List.cons_append, readWord_tok (h c List.mem_cons_self),
      ih (fun c hc => h c (List.mem_cons_of_mem _ hc)) (by simpa using hn)]
    rfl

/-- A turn of the tokeniser at a word that is no `2` in front of a `>`. -/
theorem tokenStep_word {room : Bool} (h : endsWord c = false) (hgt : t.head? ≠ some '>') :
    tokenStep room cur c t =
      match readWord .plain (maxLine - 1) (c :: t) with
      | (tok, rest) => if rest.length = t.length + 1 then none else some (.same (addArg cur tok) rest) := by
  simp only [endsWord, Bool.or_eq_false_iff, decide_eq_false_iff_not] at h
  obtain ⟨⟨⟨⟨⟨-, h1⟩, h2⟩, h3⟩, h4⟩, h5⟩ := h
  have htake : t.take 3 ≠ ['>', '&', '1'] := by
    intro heq
    cases t with
    | nil => cases heq
    | cons d t =>
      rw [List.take_succ_cons, List.cons.injEq] at heq
      exact hgt (congrArg some heq.1)
  rw [tokenStep, if_neg (fun h => h1 h.1), if_neg (fun h => h2 h.1), if_neg h1, if_neg h2, if_neg h5, if_neg (fun h => htake h.2),
    if_neg (fun h => hgt h.2), if_neg (fun h => h4 h.1), if_neg h4, if_neg h3]

/-- A turn of the loop of `tokenize` at a word. -/
theorem tokenizeFrom_word {tok rest : Text} (hc : endsWord c = false) (hgt : t.head? ≠ some '>')
    (hread : readWord .plain (maxLine - 1) (c :: t) = (tok, rest)) (hlen : rest.length < t.length + 1) :
    tokenizeFrom (fuel + 1) nc cur (c :: t) = tokenizeFrom fuel nc (addArg cur tok) rest := by
  have hblank : isBlank c = false := by
    simp only [endsWord, isSpace, Bool.or_eq_false_iff] at hc
    simp [isBlank, hc]
  rw [tokenizeFrom, List.dropWhile_cons_of_neg (by simp [hblank])]
  simp only [tokenStep_word hc hgt, hread]
  rw [if_neg (Nat.ne_of_lt hlen)]

/-- **The tokeniser makes `cmds` of the text**, read at the command `cur` of the number `nc`. -/
def Tokens (nc : Nat) (cur : Cmd) (p : Text) (cmds : List Cmd) : Prop :=
  ∀ fuel, p.length ≤ fuel → tokenizeFrom fuel nc cur p = some cmds

theorem Tokens.nil : Tokens nc cur [] [cur] := by
  intro fuel _
  cases fuel <;> rfl

theorem tokenizeFrom_blank (hc : isBlank c = true) : tokenizeFrom fuel nc cur (c :: p) = tokenizeFrom fuel nc cur p := by
  unfold tokenizeFrom
  rw [List.dropWhile_cons_of_pos hc]

theorem Tokens.blank (hc : isBlank c = true) (h : Tokens nc cur p cmds) : Tokens nc cur (c :: p) cmds := by
  intro fuel hf
  rw [tokenizeFrom_blank hc, h fuel (Nat.le_of_succ_le hf)]

theorem Tokens.word (ht : t ≠ []) (htok : ∀ c ∈ t, isTok c = true) (hlen : t.length < maxLine)
    (hp : ∀ d q, p = d :: q → endsWord d = true ∧ d ≠ '>') (h : Tokens nc (addArg cur t) p cmds) :
    Tokens nc cur (t ++ p) cmds := by
  intro fuel hf
  obtain ⟨c, t, rfl⟩ := List.exists_cons_of_ne_nil ht
  have hc := htok c List.mem_cons_self
  obtain ⟨fuel, rfl⟩ : ∃ m, fuel = m + 1 := ⟨fuel - 1, by simp only [List.cons_append, List.length_cons] at hf; omega⟩
  have hgt : (t ++ p).head? ≠ some '>' := by
    cases t with
    | nil =>
      cases p with
      | nil => exact fun heq => by cases heq
      | cons d q => exact fun heq => (hp d q rfl).2 (Option.some.inj heq)
    | cons d t =>
      intro heq
      cases Option.some.inj heq
      exact absurd (htok '>' (List.mem_cons_of_mem _ List.mem_cons_self)) (by decide)
  have hread := readWord_append htok (fun d q heq => (hp d q heq).1) (Nat.le_sub_one_of_lt hlen)
  simp only [List.cons_append, List.length_cons, List.length_append] at hf
  rw [List.cons_append, tokenizeFrom_word (isTok_cases hc).1 hgt hread (by simp only [List.length_append]; omega)]
  exact h fuel (by omega)

/-- The text of a connector. -/
def Connector.text : Connector → Text
  | .finish => [';']
  | .pipe => ['|']
  | .or => ['|', '|']
  | .and => ['&', '&']

theorem tokenStep_connector {k : Connector} (cur : Cmd) (hk : k ≠ .finish) (hp : ∃ q, p = ' ' :: q) :
    ∃ c t, k.text ++ p = c :: t ∧ isBlank c = false ∧ tokenStep true cur c t = some (.next { cur with connector := k } p) := by
  obtain ⟨q, rfl⟩ := hp
  cases k with
  | finish => exact absurd rfl hk
  | pipe => exact ⟨'|', ' ' :: q, rfl, rfl, rfl⟩
  | or => exact ⟨'|', '|' :: ' ' :: q, rfl, rfl, rfl⟩
  | and => exact ⟨'&', '&' :: ' ' :: q, rfl, rfl, rfl⟩

theorem Tokens.connector {k : Connector} (hk : k ≠ .finish) (hnc : nc + 1 < maxCmds) (hp : ∃ q, p = ' ' :: q)
    (h : Tokens (nc + 1) {} p cmds) : Tokens nc cur (k.text ++ p) ({ cur with connector := k } :: cmds) := by
  intro fuel hf
  obtain ⟨c, t, heq, hc, hstep⟩ := tokenStep_connector cur hk hp
  have htext : 0 < k.text.length := by
    cases k <;> decide
  rw [List.length_append] at hf
  obtain ⟨fuel, rfl⟩ : ∃ m, fuel = m + 1 := ⟨fuel - 1, by omega⟩
  rw [heq, tokenizeFrom, List.dropWhile_cons_of_neg (by simp [hc])]
  simp only [decide_eq_true hnc, hstep]
  rw [h fuel (by omega)]
  rfl

end Sh
end Pico
