import Picomimi.ShVerbatim
/-!
# ShTokenize — when the tokeniser ends

Every branch of the loop of `tokenize` advances, the word loop apart: it stops at any white space, while only blanks and tabs
are skipped between words.  So the tokeniser goes round for ever at a newline, a carriage return, a form feed or a vertical
tab that a token would have to start with (`tokenizeLaw_iff`).
-/
namespace Pico
namespace Sh

variable {fuel nc maxcmds : Nat} {c : Char} {t p : Text} {cur : Cmd} {cmds : List Cmd} {room : Bool}

/-- The loop of `tokenize` with any number of commands to fill. -/
def tokenizeUpTo (maxcmds : Nat) : Nat → Nat → Cmd → Text → Option (List Cmd)
  | fuel, nc, cur, p =>
    match p.dropWhile isBlank with
    | [] => some [cur]
    | c :: t =>
      match fuel with
      | 0 => none
      | fuel + 1 =>
        match tokenStep (decide (nc + 1 < maxcmds)) cur c t with
        | none => none
        | some (.same cur rest) => tokenizeUpTo maxcmds fuel nc cur rest
        | some (.next cur rest) => (tokenizeUpTo maxcmds fuel (nc + 1) {} rest).map (cur :: ·)

/-- `exec_simple` has room for `MAX_CMDS` of them. -/
theorem tokenizeUpTo_maxCmds : ∀ (fuel nc : Nat) (cur : Cmd) (p : Text),
    tokenizeUpTo maxCmds fuel nc cur p = tokenizeFrom fuel nc cur p
  | 0, nc, cur, p => by
    unfold tokenizeUpTo tokenizeFrom
    rfl
  | fuel + 1, nc, cur, p => by
    have ih := tokenizeUpTo_maxCmds fuel
    unfold tokenizeUpTo tokenizeFrom
    cases p.dropWhile isBlank with
    | nil => rfl
    | cons c t =>
      dsimp only
      cases tokenStep (decide (nc + 1 < maxCmds)) cur c t with
      | none => rfl
      | some step =>
        cases step with
        | same cur rest => exact ih nc cur rest
        | next cur rest => exact congrArg (Option.map (cur :: ·)) (ih (nc + 1) {} rest)

/-- The text behind what stands at `c`: an operator, a redirection with its file, or a word. -/
def lexemeEnd (c : Char) (t : Text) : Text :=
  if c = '|' ∧ t.head? = some '|' then t.drop 1
  else if c = '&' ∧ t.head? = some '&' then t.drop 1
  else if c = '|' ∨ c = '&' ∨ c = ';' then t
  else if c = '2' ∧ t.take 3 = ['>', '&', '1'] then t.drop 3
  else if c = '2' ∧ t.head? = some '>' then (readFile (t.drop 1)).2
  else if c = '>' ∧ t.head? = some '>' then (readFile (t.drop 1)).2
  else if c = '>' ∨ c = '<' then (readFile t).2
  else (readWord .plain (maxLine - 1) (c :: t)).2

/-- **A text in which every token starts with something else than a line break**: newlines, carriage returns, form feeds and
vertical tabs only inside of words, where quotes or a backslash keep them. -/
inductive NoBreakStarts : Text → Prop
  | nil : NoBreakStarts []
  | blank {c : Char} {t : Text} : isBlank c = true → NoBreakStarts t → NoBreakStarts (c :: t)
  | lexeme {c : Char} {t : Text} : isSpace c = false → NoBreakStarts (lexemeEnd c t) → NoBreakStarts (c :: t)

/-- What is asked of `tokenize`: it returns, with no more commands and arguments than there is room for; and no word, with
its NUL, is longer than the buffer it is read into. -/
structure TokenizeLaw (maxcmds : Nat) (line : Text) : Prop where
  returns : ∃ cmds, tokenizeUpTo maxcmds line.length 0 {} line = some cmds ∧ cmds.length ≤ maxcmds ∧
    ∀ c ∈ cmds, c.argv.length ≤ maxArgs - 1
  buffer : ∀ p : Text, p <:+ line → (readWord .plain (maxLine - 1) p).1.length + 1 ≤ maxLine

/-! ### A turn -/

theorem isSpace_of_isBlank (h : isBlank c = true) : isSpace c = true := by
  simp only [isBlank, Bool.or_eq_true, decide_eq_true_eq] at h
  rcases h with rfl | rfl <;> decide

/-- A character other than white space that ends a word is an operator. -/
theorem operator_of_endsWord (hs : isSpace c = false) (h : endsWord c = true) :
    c = '|' ∨ c = '&' ∨ c = '<' ∨ c = '>' ∨ c = ';' := by
  simpa [endsWord, hs, or_assoc] using h

/-- The word loop takes a character at least unless it starts where a word ends. -/
theorem readWord_progress (h : endsWord c = false) {n : Nat} : (readWord .plain (n + 1) (c :: t)).2.length ≤ t.length := by
  rw [readWord_plain]
  have hsingle := readWord_length .single (n + 1) t
  have hdouble := readWord_length .double (n + 1) t
  by_cases h1 : c = '\''
  · rw [if_pos h1]
    omega
  by_cases h2 : c = '"'
  · rw [if_neg h1, if_pos h2]
    omega
  by_cases h3 : c = '\\'
  · rw [if_neg h1, if_neg h2, if_pos h3]
    cases t with
    | nil =>
      have := readWord_length .plain n []
      simp only [push]
      omega
    | cons d t =>
      have := readWord_length .plain n t
      simp only [push, List.length_cons]
      omega
  · rw [if_neg h1, if_neg h2, if_neg h3, if_neg (by simp [h])]
    have := readWord_length .plain n t
    simp only [push]
    omega

/-- **At a line break the loop does not advance.** -/
theorem tokenStep_break (hs : isSpace c = true) (hb : isBlank c = false) : tokenStep room cur c t = none := by
  have hc : c = '\n' ∨ c = '\r' ∨ c = '\x0c' ∨ c = '\x0b' := by
    simp only [isSpace, isBlank, Bool.or_eq_true, decide_eq_true_eq, Bool.or_eq_false_iff, decide_eq_false_iff_not] at hs hb
    obtain ⟨h1, h2⟩ := hb
    rcases hs with ((((h | h) | h) | h) | h) | h
    · exact absurd h h1
    · exact absurd h h2
    · exact .inl h
    · exact .inr (.inl h)
    · exact .inr (.inr (.inl h))
    · exact .inr (.inr (.inr h))
  have hword : readWord .plain (maxLine - 1) (c :: t) = ([], c :: t) :=
    readWord_ends (fun d q heq => by cases heq; simp [endsWord, hs]) _
  unfold tokenStep
  rw [hword]
  rcases hc with rfl | rfl | rfl | rfl <;> simp

/-- **Elsewhere it goes on behind the lexeme.** -/
theorem tokenStep_lexeme (hs : isSpace c = false) : ∃ r, tokenStep room cur c t = some r ∧ r.parts.2 = lexemeEnd c t := by
  have hconnect : ∀ (room : Bool) (k : Connector) (u : Text), (connect room cur k u).parts.2 = u := by
    intro room k u
    cases room <;> rfl
  unfold tokenStep lexemeEnd
  by_cases h1 : c = '|' ∧ t.head? = some '|'
  · rw [if_pos h1, if_pos h1]
    exact ⟨_, rfl, hconnect _ _ _⟩
  rw [if_neg h1, if_neg h1]
  by_cases h2 : c = '&' ∧ t.head? = some '&'
  · rw [if_pos h2, if_pos h2]
    exact ⟨_, rfl, hconnect _ _ _⟩
  rw [if_neg h2, if_neg h2]
  by_cases h3 : c = '|'
  · rw [if_pos h3, if_pos (.inl h3)]
    exact ⟨_, rfl, hconnect _ _ _⟩
  rw [if_neg h3]
  by_cases h4 : c = '&'
  · rw [if_pos h4, if_pos (.inr (.inl h4))]
    exact ⟨_, rfl, rfl⟩
  rw [if_neg h4]
  by_cases h5 : c = ';'
  · rw [if_pos h5, if_pos (.inr (.inr h5))]
    exact ⟨_, rfl, hconnect _ _ _⟩
  have hop : ¬(c = '|' ∨ c = '&' ∨ c = ';') := by simp [h3, h4, h5]
  rw [if_neg h5, if_neg hop]
  by_cases h6 : c = '2' ∧ t.take 3 = ['>', '&', '1']
  · rw [if_pos h6, if_pos h6]
    exact ⟨_, rfl, rfl⟩
  rw [if_neg h6, if_neg h6]
  by_cases h7 : c = '2' ∧ t.head? = some '>'
  · rw [if_pos h7, if_pos h7]
    exact ⟨_, rfl, rfl⟩
  rw [if_neg h7, if_neg h7]
  by_cases h8 : c = '>' ∧ t.head? = some '>'
  · rw [if_pos h8, if_pos h8]
    exact ⟨_, rfl, rfl⟩
  rw [if_neg h8, if_neg h8]
  by_cases h9 : c = '>'
  · rw [if_pos h9, if_pos (.inl h9)]
    exact ⟨_, rfl, rfl⟩
  rw [if_neg h9]
  by_cases h10 : c = '<'
  · rw [if_pos h10, if_pos (.inr h10)]
    exact ⟨_, rfl, rfl⟩
  have hfile : ¬(c = '>' ∨ c = '<') := by simp [h9, h10]
  rw [if_neg h10, if_neg hfile]
  have hends : endsWord c = false := by
    rw [Bool.eq_false_iff]
    intro he
    rcases operator_of_endsWord hs he with h | h | h | h | h
    · exact h3 h
    · exact h4 h
    · exact h10 h
    · exact h9 h
    · exact h5 h
  have hprog : (readWord .plain (maxLine - 1) (c :: t)).2.length ≤ t.length := readWord_progress hends
  rcases hword : readWord .plain (maxLine - 1) (c :: t) with ⟨tok, rest⟩
  rw [hword] at hprog
  simp only at hprog ⊢
  rw [if_neg (by omega)]
  exact ⟨_, rfl, rfl⟩

/-! ### The loop -/

theorem noBreakStarts_dropWhile : ∀ {p : Text}, NoBreakStarts (p.dropWhile isBlank) ↔ NoBreakStarts p
  | [] => Iff.rfl
  | c :: t => by
    by_cases hb : isBlank c = true
    · rw [List.dropWhile_cons_of_pos hb, noBreakStarts_dropWhile]
      refine ⟨.blank hb, fun h => ?_⟩
      cases h with
      | blank _ h => exact h
      | lexeme hs _ =>
        rw [isSpace_of_isBlank hb] at hs
        cases hs
    · rw [List.dropWhile_cons_of_neg hb]

theorem lexemeEnd_length (hs : isSpace c = false) : (lexemeEnd c t).length ≤ t.length := by
  obtain ⟨r, hr, hrest⟩ : ∃ r, tokenStep true {} c t = some r ∧ r.parts.2 = lexemeEnd c t := tokenStep_lexeme hs
  rw [← hrest]
  exact (tokenStep_loss hr).1

/-- **The loop returns exactly from a text in which no token starts with a line break.** -/
theorem tokenizeUpTo_isSome : ∀ (fuel nc : Nat) (cur : Cmd) (p : Text), p.length ≤ fuel →
    ((tokenizeUpTo maxcmds fuel nc cur p).isSome ↔ NoBreakStarts p)
  | fuel, nc, cur, p, hf => by
    have hsuffix : (p.dropWhile isBlank).length ≤ p.length := (List.dropWhile_suffix _).length_le
    have hhead := List.head?_dropWhile_not isBlank p
    rw [← noBreakStarts_dropWhile]
    unfold tokenizeUpTo
    cases hp : p.dropWhile isBlank with
    | nil => exact iff_of_true rfl .nil
    | cons c t =>
      rw [hp] at hsuffix hhead
      have hb : isBlank c = false := by simpa using hhead
      rw [List.length_cons] at hsuffix
      cases fuel with
      | zero => omega
      | succ fuel =>
        simp only
        cases hs : isSpace c with
        | true =>
          rw [tokenStep_break hs hb]
          refine iff_of_false (fun h => by cases h) fun h => ?_
          cases h with
          | blank hb' _ =>
            rw [hb] at hb'
            cases hb'
          | lexeme hs' _ =>
            rw [hs] at hs'
            cases hs'
        | false =>
          have hlen := lexemeEnd_length (t := t) hs
          have hiff : NoBreakStarts (c :: t) ↔ NoBreakStarts (lexemeEnd c t) := by
            refine ⟨fun h => ?_, .lexeme hs⟩
            cases h with
            | blank hb' _ =>
              rw [hb] at hb'
              cases hb'
            | lexeme _ h => exact h
          obtain ⟨r, hr, hrest⟩ : ∃ r, tokenStep (decide (nc + 1 < maxcmds)) cur c t = some r ∧
              r.parts.2 = lexemeEnd c t := tokenStep_lexeme hs
          rw [hr, hiff, ← hrest]
          rw [← hrest] at hlen
          cases r with
          | same cur' rest => exact tokenizeUpTo_isSome fuel nc cur' rest (by simp only [Turn.parts] at hlen; omega)
          | next cur' rest =>
            simp only [Option.isSome_map]
            exact tokenizeUpTo_isSome fuel (nc + 1) {} rest (by simp only [Turn.parts] at hlen; omega)

theorem addArg_length (h : cur.argv.length ≤ maxArgs - 1) (tok : Text) : (addArg cur tok).argv.length ≤ maxArgs - 1 := by
  unfold addArg
  by_cases hadd : tok ≠ [] ∧ cur.argv.length < maxArgs - 1
  · rw [if_pos hadd, List.length_append, List.length_singleton]
    exact hadd.2
  · rw [if_neg hadd]
    exact h

theorem tokenStep_argv {r : Turn} (h : tokenStep room cur c t = some r) (hcur : cur.argv.length ≤ maxArgs - 1) :
    r.parts.1.argv.length ≤ maxArgs - 1 := by
  rcases (tokenStep_loss h).2 with hargv | ⟨tok, rest, rfl, -⟩
  · rw [hargv]
    exact hcur
  · exact addArg_length hcur tok

/-- Only with room for another command does a turn go on to it. -/
theorem tokenStep_next {cur' : Cmd} {rest : Text} (h : tokenStep room cur c t = some (.next cur' rest)) : room = true := by
  have hconnect : ∀ (room' : Bool) (k : Connector) (u : Text), (room' = true → room = true) →
      some (connect room' cur k u) = some (.next cur' rest) → room = true := by
    intro room' k u himp heq
    cases room' with
    | true => exact himp rfl
    | false => cases heq
  unfold tokenStep at h
  by_cases h1 : c = '|' ∧ t.head? = some '|'
  · rw [if_pos h1] at h
    exact hconnect _ _ _ id h
  rw [if_neg h1] at h
  by_cases h2 : c = '&' ∧ t.head? = some '&'
  · rw [if_pos h2] at h
    exact hconnect _ _ _ id h
  rw [if_neg h2] at h
  by_cases h3 : c = '|'
  · rw [if_pos h3] at h
    exact hconnect _ _ _ id h
  rw [if_neg h3] at h
  by_cases h4 : c = '&'
  · rw [if_pos h4] at h
    cases h
  rw [if_neg h4] at h
  by_cases h5 : c = ';'
  · rw [if_pos h5] at h
    exact hconnect _ _ _ (fun hr => (Bool.and_eq_true _ _ ▸ hr).1) h
  -- the other branches keep the command
  rw [if_neg h5] at h
  split at h
  · cases h
  split at h
  · cases h
  split at h
  · cases h
  split at h
  · cases h
  split at h
  · cases h
  · rcases hword : readWord .plain (maxLine - 1) (c :: t) with ⟨tok, rest'⟩
    rw [hword] at h
    simp only at h
    split at h
    · cases h
    · cases h

theorem tokenizeUpTo_bounds : ∀ (fuel nc : Nat) (cur : Cmd) (p : Text) (cmds : List Cmd),
    tokenizeUpTo maxcmds fuel nc cur p = some cmds → nc < maxcmds → cur.argv.length ≤ maxArgs - 1 →
      nc + cmds.length ≤ maxcmds ∧ ∀ c ∈ cmds, c.argv.length ≤ maxArgs - 1
  | fuel, nc, cur, p, cmds, h, hnc, hcur => by
    have hone : nc + [cur].length ≤ maxcmds ∧ ∀ c ∈ [cur], c.argv.length ≤ maxArgs - 1 :=
      ⟨hnc, fun c hc => by rw [List.mem_singleton.1 hc]; exact hcur⟩
    unfold tokenizeUpTo at h
    cases hp : p.dropWhile isBlank with
    | nil =>
      rw [hp] at h
      cases h
      exact hone
    | cons c t =>
      rw [hp] at h
      cases fuel with
      | zero => cases h
      | succ fuel =>
        simp only at h
        cases hr : tokenStep (decide (nc + 1 < maxcmds)) cur c t with
        | none =>
          rw [hr] at h
          cases h
        | some r =>
          rw [hr] at h
          have hargv := tokenStep_argv hr hcur
          cases r with
          | same cur' rest => exact tokenizeUpTo_bounds fuel nc cur' rest cmds h hnc hargv
          | next cur' rest =>
            obtain ⟨l, hl, rfl⟩ := Option.map_eq_some_iff.1 h
            have hroom := of_decide_eq_true (tokenStep_next hr)
            obtain ⟨hlen, hall⟩ := tokenizeUpTo_bounds fuel (nc + 1) {} rest l hl hroom (Nat.zero_le _)
            refine ⟨by rw [List.length_cons]; omega, fun d hd => ?_⟩
            rcases List.mem_cons.1 hd with rfl | hd
            · exact hargv
            · exact hall d hd

theorem readWord_room (m : Mode) (n : Nat) (t : Text) : (readWord m n t).1.length ≤ n := by
  fun_induction readWord m n t with
  | case9 n d t tok rest heq _ ih =>
    rw [heq] at ih
    have hfit : (unescape n d).length ≤ n + 1 := by
      unfold unescape
      repeat' split
      all_goals simp
      omega
    simp only [List.length_append] at ih ⊢
    omega
  | _ => simp_all [push]

/-- **The tokeniser ends, within its bounds, exactly on the lines in which no token starts with a line break.** -/
theorem tokenizeLaw_iff (line : Text) (hmax : 1 ≤ maxcmds) : TokenizeLaw maxcmds line ↔ NoBreakStarts line := by
  have hiff : (tokenizeUpTo maxcmds line.length 0 {} line).isSome ↔ NoBreakStarts line :=
    tokenizeUpTo_isSome line.length 0 {} line (Nat.le_refl _)
  constructor
  · rintro ⟨⟨cmds, hcmds, -⟩, -⟩
    refine hiff.1 ?_
    rw [hcmds]
    rfl
  · intro h
    obtain ⟨cmds, hcmds⟩ := Option.isSome_iff_exists.1 (hiff.2 h)
    obtain ⟨hlen, hargs⟩ := tokenizeUpTo_bounds _ _ _ _ cmds hcmds hmax (Nat.zero_le _)
    rw [Nat.zero_add] at hlen
    exact ⟨⟨cmds, hcmds, hlen, hargs⟩, fun p _ => Nat.succ_le_of_lt (Nat.lt_of_le_of_lt (readWord_room _ _ _) (by decide))⟩

/-- A newline between quotes does no harm. -/
theorem tokenizeLaw_quoted : TokenizeLaw maxCmds ['\'', 'a', '\n', 'b', '\''] := by
  refine (tokenizeLaw_iff _ (by decide)).2 (.lexeme (by decide) ?_)
  have hend : lexemeEnd '\'' ['a', '\n', 'b', '\''] = [] := by decide +kernel
  rw [hend]
  exact .nil

/-- Two lines of output put into a command line: behind the first word the loop stands still. -/
theorem not_tokenizeLaw : ¬TokenizeLaw maxCmds ['a', '\n', 'b'] := by
  rintro ⟨⟨cmds, hcmds, -⟩, -⟩
  have hnone : tokenizeUpTo maxCmds ['a', '\n', 'b'].length 0 {} ['a', '\n', 'b'] = none := by decide +kernel
  rw [hnone] at hcmds
  cases hcmds

end Sh
end Pico
