import Mathlib.Data.List.TakeWhile
import Picomimi.Lib.Room
import Picomimi.ShVerbatim
/-!
# ShBuffers — the buffers of `expand_vars`, and of `sh_run` where it takes a compound command apart

A pointer into a line is the text from it to the NUL.  A look behind the NUL has no value, and neither has a store outside
one of the arrays; the rest of the shell is that of `Sh`.
-/
namespace Pico
namespace ShBuffers

open Lib
open Sh (Text Run World State maxLine backtick isBlank isDigit isNameStart isNameChar readUntil readParens capture getenv trimWs)

variable {ω : Type}

def nul : Char := '\x00'

/-- `p + n`, to be read at. -/
def skip (n : Nat) (p : Text) : Option Text := if n ≤ p.length then some (p.drop n) else none

/-- `memcpy(buf, p, n)`. -/
def memcpy (p : Text) (n : Nat) : Option Text := if n ≤ p.length then some (p.take n) else none

/-! ## `expand_vars` -/

/-- The text of a substitution in `cb[MAX_LINE]`, and what it prints. -/
def substitute (W : World ω) (r : Text × Text) : Run ω (Option (Text × Text)) :=
  match Room.store maxLine nul r.1 with
  | none => pure none
  | some cb => do return some (← capture W cb, r.2)

/-- The name of a variable in `vn[256]`, and its value. -/
def variableOf (r : Text × Text) : Run ω (Option (Text × Text)) :=
  match Room.store 256 nul r.1 with
  | none => pure none
  | some vn => do return some (← getenv vn, r.2)

/-- The digits of a number in `tmp[12]`, the last first. -/
def digits : Nat → Int → Text → Option Text
  | 0, _, _ => none
  | fuel + 1, v, tmp =>
    if v = 0 then some tmp
    else Room.push 12 tmp (Char.ofNat (48 + v.tmod 10).toNat) >>= digits fuel (v.tdiv 10)

/-- `$?`, `$$` and `$#`. -/
def number (v : Int) (rest : Text) : Option (Text × Text) :=
  if v = 0 then some (['0'], rest) else (digits 32 v []).map fun tmp => (tmp.reverse, rest)

/-- What stands behind a `$`: what is written for it, and the text to go on with. -/
def expandDollar (W : World ω) : Text → Run ω (Option (Text × Text))
  | [] => pure (some (['$'], []))
  | d :: t =>
    if d = '(' then substitute W (readParens (maxLine - 1) 1 t)
    else if d = '{' then variableOf (readUntil '}' 255 t)
    else if d = '?' then do return number (← Act.reads State.exit) t
    else if d = '$' then do return number (← Act.reads State.pid) t
    else if d = '#' then do return number (← Act.reads fun σ => σ.pos.length) t
    else if d = '0' then do return some (← Act.reads State.argv0, t)
    else if isDigit d then do return some (← Act.reads fun σ => (σ.pos[d.toNat - 49]?).getD [], t)
    else if isNameStart d then variableOf (d :: t.takeWhile isNameChar, t.dropWhile isNameChar)
    else pure (some (['$'], d :: t))

/-- One turn of the loop: what is written for `c`, and the text to go on with. -/
def expandStep (W : World ω) (c : Char) (t : Text) : Run ω (Option (Text × Text)) :=
  if c = '\\' ∧ t ≠ [] then pure (some (t.take 1, t.drop 1))
  else if c = '\'' then pure (some (readUntil '\'' t.length t))
  else if c = backtick then substitute W (readUntil backtick (maxLine - 1) t)
  else if c = '$' then expandDollar W t
  else pure (some ([c], t))

/-- The loop, on the characters already in `out`; a turn shortens the text. -/
def expandLoop (W : World ω) (osz : Nat) : Nat → Text → Text → Run ω (Option Text)
  | _, [], out => pure (some out)
  | 0, _ :: _, _ => pure none
  | fuel + 1, c :: t, out =>
    if out.length < osz - 1 then do
      match ← expandStep W c t with
      | none => return none
      | some (w, rest) =>
        match Room.emitAll osz w out with
        | none => return none
        | some out => expandLoop W osz fuel rest out
    else pure (some out)

/-- `expand_vars`: the characters in `out`, the NUL last. -/
def expandVars (W : World ω) (osz : Nat) (text : Text) : Run ω (Option Text) := do
  match ← expandLoop W osz text.length text [] with
  | none => return none
  | some out => return Room.push osz out nul

/-! ## The parts of a compound command -/

/-- `strstr`: what stands in front of the first `key`, and the text from it on. -/
def strstr (key : Text) : Text → Option (Text × Text)
  | [] => none
  | c :: t =>
    if key.isPrefixOf (c :: t) then some ([], c :: t) else (strstr key t).map fun r => (c :: r.1, r.2)

/-- `while ((d = strstr(d, key)) != NULL) { last = d; d += strlen(key); }`, for a keyword that does not overlap itself. -/
def lastStr (key : Text) : Text → Option (Text × Text)
  | [] => none
  | c :: t =>
    match lastStr key t with
    | some r => some (c :: r.1, r.2)
    | none => if key.isPrefixOf (c :: t) then some ([], c :: t) else none

def isSpaceTab (c : Char) : Bool := c = ' ' || c = '\t'

def isSpaceTabNl (c : Char) : Bool := c = ' ' || c = '\t' || c = '\n'

/-- The characters that `while` and `if` skip in front of a body. -/
def isGap (c : Char) : Bool := c = ' ' || c = '\t' || c = '\n' || c = ';'

/-- `*p == 'd' && *(p+1) == 'o' && (*(p+2) == ' ' || ...)`. -/
def atDo : Text → Bool
  | c :: d :: t => c = 'd' && d = 'o' && (match t with | [] => true | e :: _ => isGap e)
  | _ => false

/-- `if (strncmp(p, key, strlen(key)) == 0) p += strlen(key);`. -/
def skipKey (key p : Text) : Text := if key.isPrefixOf p then p.drop key.length else p

/-- `strncpy(body, p, sizeof(body)-1); body[sizeof(body)-1] = '\0';`. -/
def strncpy (cap : Nat) (p : Text) : Text := p.take (cap - 1)

/-- `/* Collect words up to ; / 'do' */`, at most `n` characters. -/
def readWords : Nat → Text → Text × Text
  | _, [] => ([], [])
  | 0, p => ([], p)
  | n + 1, c :: t =>
    if c = ';' ∨ atDo (c :: t) then ([], c :: t)
    else match readWords n t with
      | (w, rest) => (c :: w, rest)

/-- `for VAR in WORDS; do BODY; done`. -/
structure ForParts where
  var : Text
  words : Text
  body : Text

def forKey : Text := ['f', 'o', 'r', ' ']
def whileKey : Text := ['w', 'h', 'i', 'l', 'e', ' ']
def ifKey : Text := ['i', 'f', ' ']
def inKey : Text := ['i', 'n']
def doKey : Text := ['d', 'o']
def doneKey : Text := ['d', 'o', 'n', 'e']
def thenKey : Text := ['t', 'h', 'e', 'n']
def elseKey : Text := ['e', 'l', 's', 'e']
def elifKey : Text := ['e', 'l', 'i', 'f']
def fiKey : Text := ['f', 'i']

/-- The end of the name of the variable of a `for`. -/
def endsVar (c : Char) : Bool := c = ' ' || c = '\t' || c = '\n' || c = ';'

def forParts (line : Text) : Option ForParts := do
  let p ← skip 4 line
  let p := p.dropWhile fun c => c = ' '
  let var ← Room.store 256 nul (p.takeWhile fun c => !endsVar c)
  let p := p.dropWhile fun c => !endsVar c
  let p := (skipKey inKey (p.dropWhile isSpaceTab)).dropWhile isSpaceTab
  let (w, p) := readWords (maxLine - 1) p
  let wraw ← Room.store maxLine nul w
  let p := if p.head? = some ';' then p.drop 1 else p
  let p := (skipKey doKey (p.dropWhile isSpaceTabNl)).dropWhile isGap
  let body := strncpy (maxLine * 8) p
  let body := match lastStr doneKey body with
    | some (front, last) => if (match last.drop 4 with | [] => true | e :: _ => isGap e) then front else body
    | none => body
  some ⟨var, wraw, body⟩

/-- The condition of a `while`: the characters up to `do` without the semicolons, at most `n` of them. -/
def readCond : Nat → Text → Text × Text
  | _, [] => ([], [])
  | 0, p => ([], p)
  | n + 1, c :: t =>
    if atDo (c :: t) then ([], c :: t)
    else if c = ';' then readCond (n + 1) t
    else match readCond n t with
      | (w, rest) => (c :: w, rest)

/-- `while CMD; do BODY; done`. -/
structure WhileParts where
  cond : Text
  body : Text

def whileParts (line : Text) : Option WhileParts := do
  let p ← skip 6 line
  let (c, p) := readCond (maxLine - 1) p
  let cond ← Room.store maxLine nul c
  -- `trim_ws(cond)`: what it returns is not used, so the blanks in front stay
  let cond := cond.takeWhile isBlank ++ trimWs cond
  let p := if p.head? = some ';' then p.drop 1 else p
  let p := (skipKey doKey (p.dropWhile isSpaceTabNl)).dropWhile isGap
  let body := strncpy (maxLine * 8) p
  let body := match lastStr doneKey body with
    | some (front, _) => front
    | none => body
  some ⟨cond, body⟩

/-- `if CMD; then`: the condition and the text behind `then`, `none` without a `then`. -/
def ifCond (line : Text) : Option (Option (Text × Text)) := do
  let p ← skip 3 line
  match strstr thenKey p with
  | none => some none
  | some (front, then_p) =>
    let cond ← memcpy p (min front.length (maxLine - 1))
    let cond ← Room.store maxLine nul cond
    let cond := (cond.reverse.dropWhile fun c => c = ' ' || c = ';' || c = '\t').reverse
    let rest ← skip 4 then_p
    some (some (cond, rest.dropWhile isGap))

/-- `bl = (size_t)(q - p); if (bl >= sizeof(body)) bl = sizeof(body)-1;`; from `p` to NULL is farther than any buffer is long. -/
def bodyLen (q : Option Text) (p : Text) : Nat :=
  match q with
  | some q => if q.length ≤ p.length then min (p.length - q.length) (maxLine * 8 - 1) else maxLine * 8 - 1
  | none => maxLine * 8 - 1

/-- A body of an `if`, up to `q`. -/
def takeBody (q : Option Text) (p : Text) : Option Text := do
  let body ← memcpy p (bodyLen q p)
  Room.store (maxLine * 8) nul body

/-- `a < b` for pointers into one text, where `b` is not NULL. -/
def before (a : Text) (b : Option Text) : Bool :=
  match b with
  | none => true
  | some b => b.length < a.length

/-- `fi_p`. -/
def fiPtr (rest : Text) : Option Text := (lastStr fiKey rest).map Prod.snd

/-- `alt`: the `elif` or the `else` that ends the first body. -/
def altPtr (rest : Text) : Option Text :=
  let else_p := (strstr elseKey rest).map Prod.snd
  let fi_p := fiPtr rest
  match (strstr elifKey rest).map Prod.snd with
  | some elif_p =>
    if before elif_p else_p ∧ before elif_p fi_p then some elif_p
    else else_p.filter fun p => before p fi_p
  | none => else_p.filter fun p => before p fi_p

/-- What an `if` goes on with. -/
inductive Branch
  | none
  | body (text : Text)
  | line (text : Text)

/-- The branch of an `if` whose condition has ended with `cret`. -/
def ifBranch (rest : Text) (cret : Int) : Option Branch :=
  if cret = 0 then (takeBody ((altPtr rest).or (fiPtr rest)) rest).map .body
  else
    match altPtr rest with
    | none => some .none
    | some alt =>
      if elifKey.isPrefixOf alt then do
        -- `snprintf(el, sizeof(el), "if %s", alt+5);`
        let p ← skip 5 alt
        some (.line ((ifKey ++ p).take (maxLine * 8 - 1)))
      else do
        let eb ← skip 4 alt
        let eb := eb.dropWhile isGap
        match fiPtr rest with
        | some fi_p => (takeBody (some fi_p) eb).map .body
        | none => do
          let body ← memcpy eb (min eb.length (maxLine * 8 - 1))
          (Room.store (maxLine * 8) nul body).map .body

/-- What a call of `sh_run` takes out of its line, an `if` for each outcome of its condition. -/
def Extracts (input : Text) : Prop :=
  let line := trimWs (input.take (maxLine * 8 - 1))
  if forKey.isPrefixOf line then (forParts line).isSome = true
  else if whileKey.isPrefixOf line then (whileParts line).isSome = true
  else if ifKey.isPrefixOf line ∨ line = ['i', 'f'] then
    (ifCond line).isSome ∧ ∀ cond rest, ifCond line = some (some (cond, rest)) → ∀ cret, (ifBranch rest cret).isSome
  else True

/-! ## When the buffers hold -/

/-- The name behind a `$` fits `vn[256]`, where `c` is a `$` and a name stands behind it. -/
def nameFits (c : Char) (t : Text) : Bool :=
  !(c = '$' && (t.head?.any isNameStart)) || decide ((t.takeWhile isNameChar).length ≤ 255)

/-- **Each name that the loop of `expand_vars` comes to fits**: `room` is what is left in front of the last byte of the
buffer. -/
inductive NamesFit (W : World ω) : Nat → Text → State ω → Prop
  | nul {room : Nat} {σ : State ω} : NamesFit W room [] σ
  | full {t : Text} {σ : State ω} : NamesFit W 0 t σ
  | turn {room : Nat} {c : Char} {t w rest : Text} {σ σ' : State ω} {ev : List Sh.Event} (hname : nameFits c t)
      (hrun : Sh.expandStep W c t σ = (ev, some ((w, rest), σ'))) (h : NamesFit W (room + 1 - w.length) rest σ') :
      NamesFit W (room + 1) (c :: t) σ

/-- An `int` holds the number. -/
def IsInt (v : Int) : Prop := -2147483648 ≤ v ∧ v < 2147483648

instance (v : Int) : Decidable (IsInt v) := instDecidableAnd

/-- The numbers of the shell are those of an `int`. -/
structure Ints (σ : State ω) : Prop where
  exit : IsInt σ.exit
  pid : IsInt σ.pid
  npos : IsInt σ.pos.length

/-- The text behind the first `then` of an `if`. -/
def behindThen (line : Text) : Option Text := (strstr thenKey (line.drop 3)).map fun r => (r.2.drop 4).dropWhile isGap

/-- **The parts of the line are in it, and fit**: the name of the variable of a `for`; of an `if` that has its `then` the end
of the first body, and a character behind its `elif`. -/
def Whole (input : Text) : Prop :=
  let line := trimWs (input.take (maxLine * 8 - 1))
  if forKey.isPrefixOf line then (((line.drop 4).dropWhile fun c => c = ' ').takeWhile fun c => !endsVar c).length ≤ 255
  else if whileKey.isPrefixOf line then True
  else if ifKey.isPrefixOf line ∨ line = ['i', 'f'] then
    line ≠ ['i', 'f'] ∧ ∀ rest, behindThen line = some rest →
      (fiKey <:+: rest ∨ (altPtr rest).isSome) ∧ altPtr rest ≠ some elifKey
  else True

/-! ## `expand_vars` -/

theorem substitute_eq {W : World ω} {r : Text × Text} (h : r.1.length < maxLine) :
    substitute W r = some <$> (do return (← capture W r.1, r.2)) := by
  rw [substitute, Room.store_spec, if_pos h]
  simp only [map_bind, map_pure]

theorem variableOf_eq {r : Text × Text} (h : r.1.length ≤ 255) :
    (variableOf r : Run ω _) = some <$> (do return (← getenv r.1, r.2)) := by
  rw [variableOf, Room.store_spec, if_pos (Nat.lt_succ_of_le h)]
  simp only [map_bind, map_pure]

theorem variableOf_none {r : Text × Text} (h : ¬r.1.length ≤ 255) : (variableOf r : Run ω _) = pure none := by
  rw [variableOf, Room.store_spec, if_neg (by omega)]

/-- The digits of a number below `10 ^ k`. -/
theorem digits_spec : ∀ (k n m : Nat) (v : Int) (tmp : Text), v.natAbs < 10 ^ k → k < n → k ≤ m → tmp.length + k ≤ 12 →
    digits n v tmp = some (tmp ++ Sh.digitsRev m v)
  | 0, n, m, v, tmp, hv, hn, _, _ => by
    obtain ⟨n, rfl⟩ : ∃ i, n = i + 1 := ⟨n - 1, by omega⟩
    have h0 : v = 0 := by simpa using hv
    rw [digits, if_pos h0]
    cases m with
    | zero => rw [Sh.digitsRev, List.append_nil]
    | succ m => rw [Sh.digitsRev, if_pos h0, List.append_nil]
  | k + 1, n, m, v, tmp, hv, hn, hm, hlen => by
    obtain ⟨n, rfl⟩ : ∃ i, n = i + 1 := ⟨n - 1, by omega⟩
    obtain ⟨m, rfl⟩ : ∃ i, m = i + 1 := ⟨m - 1, by omega⟩
    rw [digits, Sh.digitsRev]
    by_cases h0 : v = 0
    · rw [if_pos h0, if_pos h0, List.append_nil]
    · have hdiv : (v.tdiv 10).natAbs < 10 ^ k := by
        rw [Int.natAbs_tdiv]
        exact Nat.div_lt_of_lt_mul (Nat.pow_succ' ▸ hv)
      rw [if_neg h0, if_neg h0, Room.push_of_lt (by omega), Option.bind_eq_bind, Option.bind_some,
        digits_spec k n m _ _ hdiv (by omega) (by omega) (by rw [List.length_append, List.length_singleton]; omega),
        List.append_assoc, List.singleton_append]

theorem number_eq {v : Int} (h : IsInt v) (rest : Text) : number v rest = some (Sh.number v, rest) := by
  have hv : v.natAbs < 10 ^ 10 := by
    have := h.1
    have := h.2
    omega
  unfold number Sh.number
  split
  · rfl
  · rw [digits_spec 10 32 12 v [] hv (by decide) (by decide) (by decide)]
    rfl

theorem nameFits_of_ne {c : Char} {t : Text} (h : c ≠ '$') : nameFits c t := by simp [nameFits, h]

/-- **What stands behind a `$` is expanded as the shell does it** where the name fits. -/
theorem expandDollar_of_fits {W : World ω} {t : Text} {σ : State ω} (hσ : Ints σ) (h : nameFits '$' t) :
    expandDollar W t σ = (some <$> Sh.expandDollar W t) σ := by
  cases t with
  | nil => rfl
  | cons d t =>
    rw [expandDollar, Sh.expandDollar]
    by_cases hparen : d = '('
    · have hlen : (readParens (maxLine - 1) 1 t).1.length < maxLine := Nat.lt_of_le_of_lt (Sh.readParens_le _ _ _) (by decide)
      rw [if_pos hparen, if_pos hparen, substitute_eq hlen]
    rw [if_neg hparen, if_neg hparen]
    by_cases hbrace : d = '{'
    · rw [if_pos hbrace, if_pos hbrace, variableOf_eq (Sh.readUntil_le _ _ _)]
    rw [if_neg hbrace, if_neg hbrace]
    by_cases hexit : d = '?'
    · rw [if_pos hexit, if_pos hexit]
      exact congrArg (fun r => ([], some (r, σ))) (number_eq hσ.exit t)
    rw [if_neg hexit, if_neg hexit]
    by_cases hpid : d = '$'
    · rw [if_pos hpid, if_pos hpid]
      exact congrArg (fun r => ([], some (r, σ))) (number_eq hσ.pid t)
    rw [if_neg hpid, if_neg hpid]
    by_cases hnpos : d = '#'
    · rw [if_pos hnpos, if_pos hnpos]
      exact congrArg (fun r => ([], some (r, σ))) (number_eq hσ.npos t)
    rw [if_neg hnpos, if_neg hnpos]
    by_cases hzero : d = '0'
    · rw [if_pos hzero, if_pos hzero]
      rfl
    rw [if_neg hzero, if_neg hzero]
    by_cases hdigit : isDigit d = true
    · rw [if_pos hdigit, if_pos hdigit]
      rfl
    rw [if_neg hdigit, if_neg hdigit]
    by_cases hname : isNameStart d = true
    · have hchar : isNameChar d = true := by rw [isNameChar, hname, Bool.true_or]
      have hlen : (d :: t.takeWhile isNameChar).length ≤ 255 := by
        simpa [nameFits, hname, List.takeWhile_cons_of_pos hchar] using h
      rw [if_pos hname, if_pos hname, variableOf_eq hlen]
    · rw [if_neg hname, if_neg hname]
      rfl

/-- A name that does not fit is written past the end of `vn`. -/
theorem expandStep_of_not_fits {W : World ω} {c : Char} {t : Text} (h : ¬nameFits c t) : expandStep W c t = pure none := by
  have hc : c = '$' := by_contra fun hne => h (nameFits_of_ne hne)
  subst hc
  cases t with
  | nil => exact absurd rfl h
  | cons d t =>
    have hname : isNameStart d = true := by
      by_contra hno
      exact h (by simp [nameFits, hno])
    have hne : ∀ {e : Char}, isNameStart e = false → d ≠ e := fun he heq => by
      rw [heq, he] at hname
      cases hname
    have hdigit : ¬isDigit d = true := fun hd => by
      simp only [isDigit, isNameStart, Bool.and_eq_true, Bool.or_eq_true, decide_eq_true_eq, Char.le_def, UInt32.le_iff_toNat_le]
        at hd hname
      obtain (rfl | hname) | hname := hname
      · exact absurd hd (by decide)
      · exact absurd (Nat.le_trans hname.1 hd.2) (by decide)
      · exact absurd (Nat.le_trans hname.1 hd.2) (by decide)
    have hchar : isNameChar d = true := by rw [isNameChar, hname, Bool.true_or]
    have hlen : ¬(d :: t.takeWhile isNameChar).length ≤ 255 := by
      simpa [nameFits, hname, List.takeWhile_cons_of_pos hchar] using h
    have hesc : ¬('$' = '\\' ∧ d :: t ≠ []) := fun h => absurd h.1 (by decide)
    have hback : '$' ≠ backtick := by decide
    rw [expandStep, if_neg hesc, if_neg (by decide), if_neg hback, if_pos rfl, expandDollar, if_neg (hne (by decide)),
      if_neg (hne (by decide)), if_neg (hne (by decide)), if_neg (hne (by decide)), if_neg (hne (by decide)),
      if_neg (hne (by decide)), if_neg hdigit, if_pos hname, variableOf_none hlen]

theorem capture_returns (W : World ω) (t : Text) {σ : State ω} (hσ : Ints σ) :
    ∃ ev r σ', Sh.capture W t σ = (ev, some (r, σ')) ∧ Ints σ' := by
  have hemit : (Act.emit (.capture t) : Run ω Unit) σ = ([.capture t], some ((), σ)) := rfl
  have hreads : (Act.reads fun σ => W.capture σ t : Run ω _) σ = ([], some (W.capture σ t, σ)) := rfl
  rw [Sh.capture, Act.bind_some hemit, Act.bind_some hreads]
  rcases W.capture σ t with ⟨out, _ | ⟨bytes, st⟩⟩
  · exact ⟨_, [], { σ with outside := out }, rfl, ⟨hσ.exit, hσ.pid, hσ.npos⟩⟩
  · refine ⟨_, Sh.trimOutput bytes, { σ with outside := out, exit := if st % 128 = 0 then Sh.waitStatus st else σ.exit }, rfl,
      ⟨?_, hσ.pid, hσ.npos⟩⟩
    dsimp only
    split
    · rename_i h0
      rw [Sh.waitStatus, if_pos h0]
      constructor <;> omega
    · exact hσ.exit

/-- **A turn of the loop is that of the shell** where the name fits. -/
theorem expandStep_of_fits {W : World ω} {c : Char} {t : Text} {σ : State ω} (hσ : Ints σ) (h : nameFits c t) :
    expandStep W c t σ = (some <$> Sh.expandStep W c t) σ := by
  unfold expandStep Sh.expandStep
  by_cases hesc : c = '\\' ∧ t ≠ []
  · rw [if_pos hesc, if_pos hesc]
    rfl
  rw [if_neg hesc, if_neg hesc]
  by_cases hquote : c = '\''
  · rw [if_pos hquote, if_pos hquote]
    rfl
  rw [if_neg hquote, if_neg hquote]
  by_cases hback : c = backtick
  · have hlen : (readUntil backtick (maxLine - 1) t).1.length < maxLine :=
      Nat.lt_of_le_of_lt (Sh.readUntil_le _ _ _) (by decide)
    rw [if_pos hback, if_pos hback, substitute_eq hlen]
  rw [if_neg hback, if_neg hback]
  by_cases hdollar : c = '$'
  · rw [if_pos hdollar, if_pos hdollar]
    exact expandDollar_of_fits hσ (hdollar ▸ h)
  · rw [if_neg hdollar, if_neg hdollar]
    rfl

theorem expandDollar_returns (W : World ω) (t : Text) {σ : State ω} (hσ : Ints σ) :
    ∃ ev w rest σ', Sh.expandDollar W t σ = (ev, some ((w, rest), σ')) ∧ rest.length ≤ t.length ∧ Ints σ' := by
  cases t with
  | nil => exact ⟨_, _, _, _, rfl, Nat.le_refl _, hσ⟩
  | cons d t =>
    have hle : ∀ {n : Nat}, n ≤ t.length → n ≤ (d :: t).length := fun h => Nat.le_succ_of_le h
    rw [Sh.expandDollar]
    by_cases hparen : d = '('
    · obtain ⟨ev, r, σ', hrun, hσ'⟩ := capture_returns W (readParens (maxLine - 1) 1 t).1 hσ
      rw [if_pos hparen]
      exact ⟨_, _, _, _, Act.bind_some hrun _, hle (Sh.readParens_length _ _ _), hσ'⟩
    rw [if_neg hparen]
    by_cases hbrace : d = '{'
    · have hlen := Sh.readUntil_length '}' 255 t
      rw [if_pos hbrace]
      exact ⟨_, _, _, _, rfl, hle (by omega), hσ⟩
    rw [if_neg hbrace]
    split_ifs
    iterate 5 exact ⟨_, _, _, _, rfl, hle (Nat.le_refl _), hσ⟩
    · exact ⟨_, _, _, _, rfl, hle (List.dropWhile_sublist _).length_le, hσ⟩
    · exact ⟨_, _, _, _, rfl, Nat.le_refl _, hσ⟩

theorem expandStep_returns (W : World ω) (c : Char) (t : Text) {σ : State ω} (hσ : Ints σ) :
    ∃ ev w rest σ', Sh.expandStep W c t σ = (ev, some ((w, rest), σ')) ∧ rest.length ≤ t.length ∧ Ints σ' := by
  unfold Sh.expandStep
  split
  · exact ⟨_, _, _, _, rfl, (List.drop_sublist 1 t).length_le, hσ⟩
  split
  · have hlen := Sh.readUntil_length '\'' t.length t
    exact ⟨_, _, _, _, rfl, by omega, hσ⟩
  split
  · have hlen := Sh.readUntil_length backtick (maxLine - 1) t
    obtain ⟨ev, r, σ', hrun, hσ'⟩ := capture_returns W (readUntil backtick (maxLine - 1) t).1 hσ
    have hrest : (readUntil backtick (maxLine - 1) t).2.length ≤ t.length := by omega
    exact ⟨_, _, _, _, Act.bind_some hrun _, hrest, hσ'⟩
  split
  · exact expandDollar_returns W t hσ
  · exact ⟨_, _, _, _, rfl, Nat.le_refl _, hσ⟩

variable {W : World ω} {osz : Nat}

theorem expandLoop_full {fuel : Nat} {t out : Text} (hfuel : t.length ≤ fuel) (hout : ¬out.length < osz - 1) :
    expandLoop W osz fuel t out = pure (some out) := by
  cases t with
  | nil => cases fuel <;> rfl
  | cons c t =>
    cases fuel with
    | zero => cases hfuel
    | succ fuel => rw [expandLoop, if_neg hout]

/-- A turn that has a value, with its text stored as far as there is room. -/
theorem expandLoop_turn {fuel : Nat} {c : Char} {t out w rest : Text} {σ σ' : State ω} {ev : List Sh.Event}
    (hout : out.length < osz - 1) (hstep : expandStep W c t σ = (ev, some (some (w, rest), σ'))) :
    expandLoop W osz (fuel + 1) (c :: t) out σ =
      (ev ++ (expandLoop W osz fuel rest (out ++ w.take (osz - 1 - out.length)) σ').1,
        (expandLoop W osz fuel rest (out ++ w.take (osz - 1 - out.length)) σ').2) := by
  rw [expandLoop, if_pos hout, Act.bind_some hstep]
  dsimp only
  rw [Room.emitAll_spec w out (Nat.le_of_lt hout)]

/-- **A text whose names fit is expanded as the shell does it.** -/
theorem expandLoop_of_fits {room : Nat} {t : Text} {σ : State ω} (h : NamesFit W room t σ) :
    ∀ (fuel : Nat) (out : Text), Ints σ → t.length ≤ fuel → out.length + room = osz - 1 →
      ∃ ev w σ', Sh.expandLoop W fuel room t σ = (ev, some (w, σ')) ∧ w.length ≤ room ∧
        expandLoop W osz fuel t out σ = (ev, some (some (out ++ w), σ')) := by
  induction h with
  | @nul room σ =>
    intro fuel out _ _ _
    refine ⟨[], [], σ, ?_, Nat.zero_le _, ?_⟩
    · cases fuel <;> rfl
    · rw [List.append_nil]
      cases fuel <;> rfl
  | @full t σ =>
    intro fuel out _ hfuel hroom
    refine ⟨[], [], σ, ?_, Nat.zero_le _, ?_⟩
    · cases fuel with
      | zero => rfl
      | succ fuel => cases t <;> rfl
    · rw [expandLoop_full hfuel (by omega), List.append_nil]
      rfl
  | @turn room c t w rest σ σ' ev hname hrun _ ih =>
    intro fuel out hσ hfuel hroom
    obtain ⟨fuel, rfl⟩ : ∃ n, fuel = n + 1 := ⟨fuel - 1, by rw [List.length_cons] at hfuel; omega⟩
    obtain ⟨ev', w', rest', σ'', hrun', hrest, hσ'⟩ := expandStep_returns W c t hσ
    rw [hrun] at hrun'
    cases hrun'
    have hout : out.length < osz - 1 := by omega
    have hstep : expandStep W c t σ = (ev, some (some (w, rest), σ')) := by
      rw [expandStep_of_fits hσ hname, Act.map_some hrun]
    have hlen : (out ++ w.take (osz - 1 - out.length)).length + (room + 1 - w.length) = osz - 1 := by
      rw [List.length_append, List.length_take]
      omega
    rw [List.length_cons] at hfuel
    obtain ⟨ev₂, w₂, σ₂, hloop, hle, hexp⟩ := ih fuel (out ++ w.take (osz - 1 - out.length)) hσ' (by omega) hlen
    refine ⟨ev ++ ev₂, w.take (room + 1) ++ w₂, σ₂, ?_, ?_, ?_⟩
    · rw [Sh.expandLoop, if_neg (Nat.succ_ne_zero room), Act.bind_some hrun]
      dsimp only
      rw [Act.bind_some hloop]
      simp [Act.pure_apply]
    · rw [List.length_append, List.length_take]
      omega
    · rw [expandLoop_turn hout hstep, hexp, show osz - 1 - out.length = room + 1 by omega, List.append_assoc]

/-- **A text that is expanded has names that fit.** -/
theorem fits_of_expandLoop : ∀ (fuel : Nat) (t out : Text) (σ : State ω), Ints σ → out.length ≤ osz - 1 →
    (∃ o σ', (expandLoop W osz fuel t out σ).2 = some (some o, σ')) → NamesFit W (osz - 1 - out.length) t σ
  | _, [], _, _, _, _, _ => .nul
  | 0, _ :: _, _, _, _, _, ⟨_, _, h⟩ => by cases h
  | fuel + 1, c :: t, out, σ, hσ, hle, h => by
    by_cases hout : out.length < osz - 1
    · rw [show osz - 1 - out.length = osz - 1 - out.length - 1 + 1 by omega]
      have hname : nameFits c t := by
        by_contra hno
        obtain ⟨o, σ', h⟩ := h
        rw [expandLoop, if_pos hout, expandStep_of_not_fits hno] at h
        cases h
      obtain ⟨ev, w, rest, σ', hrun, -, hσ'⟩ := expandStep_returns W c t hσ
      have hstep : expandStep W c t σ = (ev, some (some (w, rest), σ')) := by
        rw [expandStep_of_fits hσ hname, Act.map_some hrun]
      rw [expandLoop_turn hout hstep] at h
      have hlen : (out ++ w.take (osz - 1 - out.length)).length = min (osz - 1) (out.length + w.length) := by
        rw [List.length_append, List.length_take]
        omega
      have hle' : (out ++ w.take (osz - 1 - out.length)).length ≤ osz - 1 := by omega
      have ih := fits_of_expandLoop fuel rest _ σ' hσ' hle' h
      refine .turn hname hrun ?_
      convert ih using 1
      omega
    · rw [show osz - 1 - out.length = 0 by omega]
      exact .full

/-- **`expand_vars` stays inside its arrays exactly where the names fit**, and ends the buffer with a NUL. -/
theorem expandVars_iff (osz : Nat) (text : Text) {σ : State ω} (hσ : Ints σ) :
    (∃ out σ', (expandVars W (osz + 1) text σ).2 = some (some (out ++ [nul]), σ') ∧ out.length ≤ osz) ↔
      NamesFit W osz text σ := by
  constructor
  · rintro ⟨out, σ', h, -⟩
    unfold expandVars at h
    suffices hloop : ∃ o σ', (expandLoop W (osz + 1) text.length text [] σ).2 = some (some o, σ') from
      fits_of_expandLoop text.length text [] σ hσ (Nat.zero_le _) hloop
    rcases hloop : expandLoop W (osz + 1) text.length text [] σ with ⟨ev, _ | ⟨_ | o, σ₁⟩⟩
    · rw [Act.bind_none hloop] at h
      cases h
    · rw [Act.bind_some hloop] at h
      cases h
    · exact ⟨o, σ₁, rfl⟩
  · intro h
    have hroom : ([] : Text).length + osz = osz + 1 - 1 := by simp
    obtain ⟨ev, w, σ', -, hle, hloop⟩ := expandLoop_of_fits h text.length [] hσ (Nat.le_refl _) hroom
    refine ⟨w, σ', ?_, hle⟩
    rw [expandVars, Act.bind_some hloop, List.nil_append]
    dsimp only
    rw [Room.push_of_lt (Nat.lt_succ_of_le hle)]
    rfl

/-! ## The parts of a compound command -/

theorem skip_of_le {n : Nat} {p : Text} (h : n ≤ p.length) : skip n p = some (p.drop n) := if_pos h

theorem memcpy_of_le {n : Nat} {p : Text} (h : n ≤ p.length) : memcpy p n = some (p.take n) := if_pos h

theorem readWords_le : ∀ (n : Nat) (p : Text), (readWords n p).1.length ≤ n
  | 0, [] => Nat.le_refl _
  | _ + 1, [] => Nat.zero_le _
  | 0, _ :: _ => Nat.le_refl _
  | n + 1, c :: t => by
    rw [readWords]
    split
    · exact Nat.zero_le _
    · exact Nat.succ_le_succ (readWords_le n t)

theorem readCond_le (n : Nat) (p : Text) : (readCond n p).1.length ≤ n := by
  induction p generalizing n with
  | nil => cases n <;> exact Nat.zero_le _
  | cons c t ih =>
    cases n with
    | zero => exact Nat.le_refl _
    | succ n =>
      rw [readCond]
      split
      · exact Nat.zero_le _
      split
      · exact ih (n + 1)
      · exact Nat.succ_le_succ (ih n)

/-- **The parts of a `for` are found exactly if the name of its variable fits.** -/
theorem forParts_isSome_iff {line : Text} (h : forKey <+: line) :
    (forParts line).isSome ↔ (((line.drop 4).dropWhile fun c => c = ' ').takeWhile fun c => !endsVar c).length ≤ 255 := by
  have hlen : 4 ≤ line.length := h.length_le
  unfold forParts
  rw [skip_of_le hlen, Option.bind_eq_bind, Option.bind_some]
  dsimp only
  rw [Room.store_spec]
  split
  · rename_i hvar
    have hwords : ∀ p : Text, (readWords (maxLine - 1) p).1.length < maxLine := fun p =>
      Nat.lt_of_le_of_lt (readWords_le _ _) (by decide)
    rw [Option.bind_some, Room.store_spec, if_pos (hwords _)]
    exact iff_of_true rfl (Nat.le_of_lt_succ hvar)
  · rename_i hvar
    exact iff_of_false (fun h => by cases h) fun hle => hvar (Nat.lt_succ_of_le hle)

/-- **The parts of a `while` are always found.** -/
theorem whileParts_isSome {line : Text} (h : whileKey <+: line) : (whileParts line).isSome := by
  have hlen : 6 ≤ line.length := h.length_le
  have hcond : ∀ p : Text, (readCond (maxLine - 1) p).1.length < maxLine := fun p =>
    Nat.lt_of_le_of_lt (readCond_le _ _) (by decide)
  unfold whileParts
  rw [skip_of_le hlen, Option.bind_eq_bind, Option.bind_some]
  dsimp only
  rw [Room.store_spec, if_pos (hcond _)]
  rfl

theorem strstr_some {key : Text} : ∀ {t a b : Text}, strstr key t = some (a, b) → t = a ++ b ∧ key <+: b
  | c :: t, a, b, h => by
    rw [strstr] at h
    split at h
    · rename_i hkey
      cases h
      exact ⟨rfl, List.isPrefixOf_iff_prefix.1 hkey⟩
    · obtain ⟨r, hr, heq⟩ := Option.map_eq_some_iff.1 h
      cases heq
      obtain ⟨heq, hkey⟩ := strstr_some (a := r.1) (b := r.2) hr
      exact ⟨congrArg (c :: ·) heq, hkey⟩

theorem lastStr_some {key : Text} : ∀ {t a b : Text}, lastStr key t = some (a, b) → t = a ++ b ∧ key <+: b
  | c :: t, a, b, h => by
    rw [lastStr] at h
    cases hr : lastStr key t with
    | some r =>
      rw [hr] at h
      cases h
      obtain ⟨heq, hkey⟩ := lastStr_some (a := r.1) (b := r.2) hr
      exact ⟨congrArg (c :: ·) heq, hkey⟩
    | none =>
      rw [hr] at h
      dsimp only at h
      split at h
      · rename_i hkey
        cases h
        exact ⟨rfl, List.isPrefixOf_iff_prefix.1 hkey⟩
      · cases h

/-- There is a last occurrence exactly if there is one. -/
theorem lastStr_isSome_iff {key : Text} (hkey : key ≠ []) : ∀ t : Text, (lastStr key t).isSome ↔ key <:+: t
  | [] => iff_of_false (fun h => by cases h) fun h => hkey (List.infix_nil.1 h)
  | c :: t => by
    rw [List.infix_cons_iff, ← lastStr_isSome_iff hkey t, lastStr, ← List.isPrefixOf_iff_prefix]
    cases lastStr key t with
    | some r => exact iff_of_true rfl (.inr rfl)
    | none =>
      dsimp only
      split
      · rename_i h
        exact iff_of_true rfl (.inl h)
      · rename_i h
        exact iff_of_false (fun h => by cases h) fun h' => h'.elim h fun h' => by cases h'

/-- The condition of an `if` is taken out of any line that goes on behind the keyword. -/
theorem ifCond_eq {line : Text} (h : 3 ≤ line.length) :
    ∃ cond, ifCond line = some ((behindThen line).map fun rest => (cond, rest)) := by
  unfold ifCond behindThen
  rw [skip_of_le h, Option.bind_eq_bind, Option.bind_some]
  cases hthen : strstr thenKey (line.drop 3) with
  | none => exact ⟨[], rfl⟩
  | some r =>
    obtain ⟨heq, hkey⟩ := strstr_some hthen
    have hlen : r.1.length ≤ (line.drop 3).length := by
      rw [heq, List.length_append]
      exact Nat.le_add_right _ _
    have hshort : ((line.drop 3).take (min r.1.length (maxLine - 1))).length < maxLine := by
      rw [List.length_take]
      have : 0 < maxLine := by decide
      omega
    have hfour : 4 ≤ r.2.length := hkey.length_le
    dsimp only
    rw [memcpy_of_le (by omega), Option.bind_some, Room.store_spec, if_pos hshort, Option.bind_some, skip_of_le hfour]
    exact ⟨_, rfl⟩

theorem behindThen_length {line rest : Text} (h : behindThen line = some rest) : rest.length + 7 ≤ line.length := by
  obtain ⟨r, hr, rfl⟩ := Option.map_eq_some_iff.1 h
  obtain ⟨heq, hkey⟩ := strstr_some (a := r.1) (b := r.2) hr
  have hfour : 4 ≤ r.2.length := hkey.length_le
  have hdrop : (line.drop 3).length = r.1.length + r.2.length := by rw [heq, List.length_append]
  have hle := (List.dropWhile_sublist (p := isGap) (l := r.2.drop 4)).length_le
  rw [List.length_drop] at hle hdrop
  omega

theorem fiPtr_isSome_iff (rest : Text) : (fiPtr rest).isSome ↔ fiKey <:+: rest := by
  rw [fiPtr, Option.isSome_map, lastStr_isSome_iff (by decide)]

theorem fiPtr_some {rest fi : Text} (h : fiPtr rest = some fi) : fi <:+ rest ∧ fiKey <+: fi := by
  obtain ⟨r, hr, rfl⟩ := Option.map_eq_some_iff.1 h
  obtain ⟨heq, hkey⟩ := lastStr_some (a := r.1) (b := r.2) hr
  exact ⟨⟨r.1, heq.symm⟩, hkey⟩

/-- `alt` is an `elif` or an `else` in front of the last `fi`. -/
theorem altPtr_some {rest alt : Text} (h : altPtr rest = some alt) :
    alt <:+ rest ∧ (elifKey <+: alt ∨ elseKey <+: alt) ∧ before alt (fiPtr rest) := by
  have hstr : ∀ {key q : Text}, (strstr key rest).map Prod.snd = some q → q <:+ rest ∧ key <+: q := fun {key q} h => by
    obtain ⟨r, hr, rfl⟩ := Option.map_eq_some_iff.1 h
    obtain ⟨heq, hkey⟩ := strstr_some (a := r.1) (b := r.2) hr
    exact ⟨⟨r.1, heq.symm⟩, hkey⟩
  have helse : ((strstr elseKey rest).map Prod.snd).filter (fun p => before p (fiPtr rest)) = some alt →
      alt <:+ rest ∧ (elifKey <+: alt ∨ elseKey <+: alt) ∧ before alt (fiPtr rest) := fun h => by
    obtain ⟨hsome, hbefore⟩ := Option.filter_eq_some_iff.1 h
    obtain ⟨hsuf, hkey⟩ := hstr hsome
    exact ⟨hsuf, .inr hkey, hbefore⟩
  unfold altPtr at h
  dsimp only at h
  split at h
  · rename_i elif_p helif
    split at h
    · rename_i hbefore
      cases h
      obtain ⟨hsuf, hkey⟩ := hstr helif
      exact ⟨hsuf, .inl hkey, hbefore.2⟩
    · exact helse h
  · exact helse h

/-- A body that ends in the text is copied. -/
theorem takeBody_some {q p : Text} (h : q.length ≤ p.length) : (takeBody (some q) p).isSome := by
  have hlen : bodyLen (some q) p ≤ p.length ∧ bodyLen (some q) p < maxLine * 8 := by
    have hmax : 0 < maxLine * 8 := by decide
    rw [bodyLen, if_pos h]
    omega
  have hshort : (p.take (bodyLen (some q) p)).length < maxLine * 8 := by
    rw [List.length_take]
    omega
  rw [takeBody, memcpy_of_le hlen.1, Option.bind_eq_bind, Option.bind_some, Room.store_spec, if_pos hshort]
  rfl

/-- Without an end, the copy of a body goes on behind the text. -/
theorem takeBody_none {p : Text} (h : p.length < maxLine * 8 - 1) : takeBody none p = none := by
  rw [takeBody, memcpy, bodyLen, if_neg (Nat.not_le_of_lt h)]
  rfl

/-- The `fi` behind an `else` is behind the blanks that follow it, too. -/
theorem fi_behind_else {alt fi : Text} (helse : elseKey <+: alt) (hfi : fi <:+ alt) (hkey : fiKey <+: fi) :
    fi.length ≤ ((alt.drop 4).dropWhile isGap).length := by
  obtain ⟨t, rfl⟩ := helse
  have hdrop : (elseKey ++ t).drop 4 = t := rfl
  have hsplit : elseKey ++ t = (elseKey ++ t.takeWhile isGap) ++ t.dropWhile isGap := by
    rw [List.append_assoc, List.takeWhile_append_dropWhile]
  rw [hdrop]
  rcases List.suffix_or_suffix_of_suffix hfi ⟨_, hsplit.symm⟩ with h | ⟨m, hm⟩
  · exact h.length_le
  · -- what stands between has no `f` in it
    obtain ⟨a, ha⟩ := hfi
    have hfront : a ++ m = elseKey ++ t.takeWhile isGap := by
      rw [hsplit, ← hm, ← List.append_assoc] at ha
      exact List.append_cancel_right ha
    cases m with
    | nil => rw [← hm, List.nil_append]
    | cons c m =>
      obtain ⟨f, hf⟩ := hkey
      have hc : c = 'f' := by
        rw [← hf] at hm
        exact (List.cons.inj hm).1
      have hmem : 'f' ∈ elseKey ++ t.takeWhile isGap := by
        rw [← hfront, hc]
        exact List.mem_append_right _ List.mem_cons_self
      rcases List.mem_append.1 hmem with h | h
      · exact absurd h (by decide)
      · exact absurd (List.mem_takeWhile_imp h) (by decide)

theorem ifBranch_zero {rest : Text} (h : rest.length < maxLine * 8 - 1) :
    (ifBranch rest 0).isSome ↔ fiKey <:+: rest ∨ (altPtr rest).isSome := by
  rw [ifBranch, if_pos rfl, Option.isSome_map, ← fiPtr_isSome_iff]
  cases halt : altPtr rest with
  | some alt => exact iff_of_true (takeBody_some (altPtr_some halt).1.length_le) (.inr rfl)
  | none =>
    cases hfi : fiPtr rest with
    | some fi => exact iff_of_true (takeBody_some (fiPtr_some hfi).1.length_le) (.inl rfl)
    | none =>
      have hnone : takeBody ((none : Option Text).or none) rest = none := takeBody_none h
      rw [hnone]
      exact iff_of_false (fun h => by cases h) fun h => h.elim (fun h => by cases h) fun h => by cases h

theorem ifBranch_else {rest : Text} {cret : Int} (h : rest.length < maxLine * 8 - 1) (hcret : cret ≠ 0) :
    (ifBranch rest cret).isSome ↔ altPtr rest ≠ some elifKey := by
  rw [ifBranch, if_neg hcret]
  cases halt : altPtr rest with
  | none => exact iff_of_true rfl fun h => by cases h
  | some alt =>
    obtain ⟨hsuf, hkey, hbefore⟩ := altPtr_some halt
    dsimp only
    by_cases helif : elifKey <+: alt
    · obtain ⟨t, rfl⟩ := helif
      have hpre : elifKey.isPrefixOf (elifKey ++ t) = true := List.isPrefixOf_iff_prefix.2 (List.prefix_append _ _)
      rw [if_pos hpre, skip]
      cases t with
      | nil => exact iff_of_false (fun h => by cases h) fun h => h rfl
      | cons c t => exact iff_of_true rfl fun h => by cases h
    · have hno : ¬elifKey.isPrefixOf alt = true := fun h => helif (List.isPrefixOf_iff_prefix.1 h)
      have helse := hkey.resolve_left helif
      have hne : alt ≠ elifKey := fun heq => helif (heq ▸ List.prefix_refl _)
      have hfour : 4 ≤ alt.length := helse.length_le
      rw [if_neg hno, skip_of_le hfour, Option.bind_eq_bind, Option.bind_some]
      refine iff_of_true ?_ fun h => hne (Option.some.inj h)
      have heb : ((alt.drop 4).dropWhile isGap).length ≤ rest.length :=
        Nat.le_trans (List.dropWhile_sublist _).length_le (Nat.le_trans (List.drop_sublist 4 alt).length_le hsuf.length_le)
      cases hfi : fiPtr rest with
      | some fi =>
        obtain ⟨hfisuf, hfikey⟩ := fiPtr_some hfi
        rw [hfi] at hbefore
        have hlt : fi.length ≤ alt.length := Nat.le_of_lt (of_decide_eq_true hbefore)
        have hfialt : fi <:+ alt := List.suffix_of_suffix_length_le hfisuf hsuf hlt
        rw [Option.isSome_map]
        exact takeBody_some (fi_behind_else helse hfialt hfikey)
      | none =>
        have hall : min ((alt.drop 4).dropWhile isGap).length (maxLine * 8 - 1) = ((alt.drop 4).dropWhile isGap).length := by
          omega
        have hshort : ((alt.drop 4).dropWhile isGap).length < maxLine * 8 := by omega
        dsimp only
        rw [hall, memcpy_of_le (Nat.le_refl _), Option.bind_some, Option.isSome_map, List.take_length, Room.store_spec,
          if_pos hshort]
        rfl

/-- **The branch of an `if` is found whatever its condition ends with** where the first body has an end, and the `elif` a
character behind it. -/
theorem ifBranch_isSome_iff {rest : Text} (h : rest.length < maxLine * 8 - 1) :
    (∀ cret, (ifBranch rest cret).isSome) ↔ (fiKey <:+: rest ∨ (altPtr rest).isSome) ∧ altPtr rest ≠ some elifKey := by
  refine ⟨fun hall => ⟨(ifBranch_zero h).1 (hall 0), (ifBranch_else h (by decide)).1 (hall 1)⟩, fun hall cret => ?_⟩
  by_cases hcret : cret = 0
  · rw [hcret]
    exact (ifBranch_zero h).2 hall.1
  · exact (ifBranch_else h hcret).2 hall.2

theorem trimWs_length (s : Text) : (trimWs s).length ≤ s.length := by
  unfold trimWs
  rw [List.length_reverse]
  refine Nat.le_trans (List.dropWhile_sublist _).length_le ?_
  rw [List.length_reverse]
  exact (List.dropWhile_sublist _).length_le

/-- **A call of `sh_run` stays in its line and its buffers exactly where the parts of the line are whole.** -/
theorem extracts_iff (input : Text) : Extracts input ↔ Whole input := by
  have hlen : (trimWs (input.take (maxLine * 8 - 1))).length ≤ maxLine * 8 - 1 := by
    refine Nat.le_trans (trimWs_length _) ?_
    rw [List.length_take]
    exact Nat.min_le_left _ _
  unfold Extracts Whole
  dsimp only
  generalize trimWs (input.take (maxLine * 8 - 1)) = line at hlen ⊢
  by_cases hfor : forKey.isPrefixOf line = true
  · rw [if_pos hfor, if_pos hfor]
    exact forParts_isSome_iff (List.isPrefixOf_iff_prefix.1 hfor)
  rw [if_neg hfor, if_neg hfor]
  by_cases hwhile : whileKey.isPrefixOf line = true
  · rw [if_pos hwhile, if_pos hwhile]
    exact iff_true_intro (whileParts_isSome (List.isPrefixOf_iff_prefix.1 hwhile))
  rw [if_neg hwhile, if_neg hwhile]
  by_cases hif : ifKey.isPrefixOf line = true ∨ line = ['i', 'f']
  · rw [if_pos hif, if_pos hif]
    by_cases hbare : line = ['i', 'f']
    · rw [hbare]
      exact iff_of_false (fun h => by cases h.1) fun h => h.1 rfl
    · have h3 : 3 ≤ line.length := (List.isPrefixOf_iff_prefix.1 (hif.resolve_right hbare)).length_le
      obtain ⟨cond, hcond⟩ := ifCond_eq h3
      have hsome : (some ((behindThen line).map fun rest => (cond, rest))).isSome = true := rfl
      rw [hcond, and_iff_right hbare, and_iff_right hsome]
      constructor
      · intro h rest hrest
        have hshort : rest.length < maxLine * 8 - 1 := by
          have := behindThen_length hrest
          omega
        exact (ifBranch_isSome_iff hshort).1 (h cond rest (by rw [hrest]; rfl))
      · intro h cond' rest heq
        have hrest : behindThen line = some rest := by
          obtain ⟨r, hr, hr'⟩ := Option.map_eq_some_iff.1 (Option.some.inj heq)
          cases hr'
          exact hr
        have hshort : rest.length < maxLine * 8 - 1 := by
          have := behindThen_length hrest
          omega
        exact (ifBranch_isSome_iff hshort).2 (h rest hrest)
  · rw [if_neg hif, if_neg hif]

theorem ints_bare : Ints Sh.bare := ⟨by decide, by decide, by decide⟩

end ShBuffers
end Pico
