import Picomimi.ShText
/-!
# ShQuote — a string in single quotes as an argument

A `Line` is a list of pipelines whose arguments are plain words or a string `s` in single quotes; `Line.run` is what it says:
every argument passed on as it is (`Line.run_invokes`).  `Verbatim s` says that the shell does just that, and that a sub-shell
is handed the text with the quotes still in it.  `Verbatim.of_survives` gives a condition on `s` under which it holds.
-/
namespace Pico
namespace Sh

open Lib

variable {ω : Type} {W : World ω} {σ : State ω} {fuel room nc n d d' : Nat} {c : Char} {s t u p q : Text} {cur : Cmd}
  {cmds : List Cmd}

/-! ## Lines -/

/-- A character that means itself everywhere. -/
def isPlain (c : Char) : Bool := isTok c && isLit c && c ≠ '(' && c ≠ ')'

def isWord (w : Text) : Bool := w ≠ [] && w.all isPlain

/-- A word that can be the name of a command: no comment and no keyword. -/
def isName (w : Text) : Bool :=
  isWord w && w.head? ≠ some '#' && w ≠ ['f', 'o', 'r'] && w ≠ ['w', 'h', 'i', 'l', 'e'] && w ≠ ['i', 'f']

abbrev Name : Type := { w : Text // isName w = true }

inductive Arg
  | word (w : { w : Text // isWord w = true })
  /-- The string in single quotes. -/
  | quoted

structure Command where
  name : Name
  args : List Arg

abbrev Link : Type := { k : Connector // k ≠ .finish }

/-- Commands with a connector in front of each but the first. -/
structure Segment where
  first : Command
  rest : List (Link × Command)

/-- Segments with a `;` in front of each but the first. -/
structure Line where
  first : Segment
  rest : List Segment

def Arg.text (s : Text) : Arg → Text
  | .word w => w.1
  | .quoted => '\'' :: (s ++ ['\''])

/-- What the argument stands for. -/
def Arg.value (s : Text) : Arg → Text
  | .word w => w.1
  | .quoted => s

def Command.render (f : Arg → Text) (c : Command) : Text := c.name.1 ++ c.args.flatMap fun a => ' ' :: f a

def renderFrom (f : Arg → Text) : Command → List (Link × Command) → Text
  | c, [] => c.render f
  | c, (k, d) :: l => c.render f ++ ' ' :: (k.1.text ++ ' ' :: renderFrom f d l)

def Segment.render (f : Arg → Text) (seg : Segment) : Text := renderFrom f seg.first seg.rest

def renderSegs (f : Arg → Text) : Segment → List Segment → Text
  | seg, [] => seg.render f
  | seg, seg' :: l => seg.render f ++ ' ' :: ';' :: ' ' :: renderSegs f seg' l

/-- **The text of the line**, with `s` in its quotes. -/
def Line.text (s : Text) (L : Line) : Text := renderSegs (Arg.text s) L.first L.rest

def Command.argv (s : Text) (c : Command) : List Text := c.name.1 :: c.args.map (Arg.value s)

def Command.cmd (s : Text) (c : Command) (k : Connector) : Cmd := { argv := c.argv s, connector := k }

def cmdsFrom (s : Text) : Command → List (Link × Command) → List Cmd
  | c, [] => [c.cmd s .finish]
  | c, (k, d) :: l => c.cmd s k.1 :: cmdsFrom s d l

def Segment.toCmds (s : Text) (seg : Segment) : List Cmd := cmdsFrom s seg.first seg.rest

/-- The commands one after the other, every argument as it is. -/
def Segment.run (W : World ω) (s : Text) (seg : Segment) : Run ω Int :=
  execChain W pure (seg.toCmds s).length 0 (seg.toCmds s)

/-- **What the line says**: its segments one after the other. -/
def Line.run (W : World ω) (s : Text) (L : Line) : Run ω Int :=
  match L.rest with
  | [] => L.first.run W s
  | seg :: l => runSegs (Segment.run W s) (fun _ => false) 0 (L.first :: seg :: l)

def Segment.commands (seg : Segment) : List Command := seg.first :: seg.rest.map Prod.snd

/-- The line fits the shell's buffers and tables. -/
structure Line.Fits (s : Text) (L : Line) : Prop where
  line : (L.text s).length < maxLine
  cmds : ∀ seg ∈ L.first :: L.rest, seg.rest.length < maxCmds
  args : ∀ seg ∈ L.first :: L.rest, ∀ c ∈ seg.commands, c.args.length + 1 < maxArgs

/-- Characters with nothing in them that is expanded, and no parenthesis. -/
def isFlat (t : Text) : Bool := t.all fun c => isLit c && c ≠ '(' && c ≠ ')'

/-- A command whose arguments hold the output of a sub-shell that runs `t`. -/
def substText (name : Name) (q t r : Text) : Text := name.1 ++ ' ' :: (q ++ '$' :: '(' :: (t ++ ')' :: r))

/-- **The texts a sub-shell may be asked to run**: lines, and commands with sub-shells of their own. -/
inductive Script (s : Text) : Text → Prop
  | line {L : Line} : L.Fits s → Script s (L.text s)
  | subst {name : Name} {q t r : Text} : Script s t → isFlat q = true → isFlat r = true → Script s (substText name q t r)

/-- **`s` in single quotes stands for itself**: the shell runs every line as it reads, and hands a sub-shell, in `$(..)` at any
depth or in backticks, the very text it is to run. -/
structure Verbatim (s : Text) : Prop where
  run : ∀ {ω : Type} (W : World ω) (L : Line), L.Fits s → shRun W (L.text s) = L.run W s
  subst : ∀ {ω : Type} (W : World ω) (σ : State ω) {name : Name} {q t r : Text}, Script s t → (∀ c ∈ q, isLit c = true) →
    (substText name q t r).length < maxLine → (shRun W (substText name q t r)).first σ = some (.capture t)
  backticks : ∀ {ω : Type} (W : World ω) (σ : State ω) {name : Name} {q r : Text} {L : Line}, L.Fits s →
    (∀ c ∈ q, isLit c = true) → (name.1 ++ ' ' :: (q ++ backtick :: (L.text s ++ backtick :: r))).length < maxLine →
    (shRun W (name.1 ++ ' ' :: (q ++ backtick :: (L.text s ++ backtick :: r)))).first σ = some (.capture (L.text s))

/-- The depth of parentheses behind the text; `none` when it closes the outermost. -/
def depthAfter : Nat → Text → Option Nat
  | d, [] => some d
  | d, c :: t =>
    if c = ')' ∧ d = 1 then none
    else depthAfter (if c = '(' then d + 1 else if c = ')' then d - 1 else d) t

/-- **The strings that survive**: not empty, without blanks, quotes, backslashes, backticks and the characters a command ends
at, every `$` bare, and every parenthesis closed behind it. -/
structure Survives (s : Text) : Prop where
  ne : s ≠ []
  inert : inert s = true
  balanced : depthAfter 1 s = some 1

instance (s : Text) : Decidable (Survives s) :=
  decidable_of_iff (s ≠ [] ∧ Sh.inert s = true ∧ depthAfter 1 s = some 1)
    ⟨fun h => ⟨h.1, h.2.1, h.2.2⟩, fun h => ⟨h.ne, h.inert, h.balanced⟩⟩

/-! ## What stands in a line -/

theorem isPlain_cases (h : isPlain c = true) : isTok c = true ∧ isLit c = true ∧ c ≠ '(' ∧ c ≠ ')' := by
  simpa [isPlain, and_assoc] using h

theorem isWord_cases {w : Text} (h : isWord w = true) : w ≠ [] ∧ ∀ c ∈ w, isPlain c = true := by
  simpa [isWord] using h

theorem isName_isWord {w : Text} (h : isName w = true) : isWord w = true := by
  simp only [isName, Bool.and_eq_true] at h
  exact h.1.1.1.1

section Induction

variable {f g : Arg → Text} {P : Text → Text → Prop}

/-- **A relation of two renderings of a segment** holds when it holds of the words, the separators and the two renderings of
an argument, and of texts put together of related ones. -/
theorem Segment.render_induction (hnil : P [] []) (happ : ∀ {t u t' u'}, P t u → P t' u' → P (t ++ t') (u ++ u'))
    (hsep : ∀ c ∈ [' ', '|', '&'], P [c] [c]) (hword : ∀ w : Text, isWord w = true → P w w) (harg : ∀ a, P (f a) (g a))
    (seg : Segment) : P (seg.render f) (seg.render g) := by
  have hcons : ∀ c ∈ [' ', '|', '&'], ∀ {t u}, P t u → P (c :: t) (c :: u) := fun c hc t u h => happ (hsep c hc) h
  have hcmd : ∀ c : Command, P (c.render f) (c.render g) := by
    intro c
    refine happ (hword _ (isName_isWord c.name.2)) ?_
    induction c.args with
    | nil => exact hnil
    | cons a l ih =>
      simp only [List.flatMap_cons, List.cons_append]
      exact hcons ' ' (by decide) (happ (harg a) ih)
  have hlink : ∀ k : Link, P k.1.text k.1.text := by
    rintro ⟨k, hk⟩
    cases k with
    | finish => exact absurd rfl hk
    | pipe => exact hsep '|' (by decide)
    | or => exact hcons '|' (by decide) (hsep '|' (by decide))
    | and => exact hcons '&' (by decide) (hsep '&' (by decide))
  have hfrom : ∀ (l : List (Link × Command)) (c : Command), P (renderFrom f c l) (renderFrom g c l) := by
    intro l
    induction l with
    | nil => exact hcmd
    | cons kd l ih =>
      intro c
      exact happ (hcmd c) (hcons ' ' (by decide) (happ (hlink kd.1) (hcons ' ' (by decide) (ih kd.2))))
  exact hfrom seg.rest seg.first

/-- The same of two renderings of a line. -/
theorem renderSegs_induction (hnil : P [] []) (happ : ∀ {t u t' u'}, P t u → P t' u' → P (t ++ t') (u ++ u'))
    (hsep : ∀ c ∈ [' ', '|', '&', ';'], P [c] [c]) (hword : ∀ w : Text, isWord w = true → P w w) (harg : ∀ a, P (f a) (g a)) :
    ∀ (l : List Segment) (seg : Segment), P (renderSegs f seg l) (renderSegs g seg l) := by
  have hseg := Segment.render_induction hnil happ (fun c hc => hsep c (by
    rcases List.mem_cons.1 hc with rfl | hc
    · decide
    rcases List.mem_cons.1 hc with rfl | hc
    · decide
    rw [List.mem_singleton.1 hc]
    decide)) hword harg
  intro l
  induction l with
  | nil => exact hseg
  | cons seg' l ih =>
    intro seg
    exact happ (hseg seg) (happ (hsep ' ' (by decide)) (happ (hsep ';' (by decide)) (happ (hsep ' ' (by decide)) (ih seg'))))

end Induction

/-- **The first expansion takes the quotes off.** -/
theorem Line.unquotes (hs : '\'' ∉ s) (L : Line) : Unquotes (L.text s) (renderSegs (Arg.value s) L.first L.rest) := by
  have hsep : ∀ c ∈ [' ', '|', '&', ';'], isLit c = true := List.all_eq_true.1 (by decide)
  refine renderSegs_induction .nil Unquotes.append ?_ ?_ ?_ L.rest L.first
  · intro c hc
    refine Unquotes.lits fun d hd => ?_
    rw [List.mem_singleton.1 hd]
    exact hsep c hc
  · exact fun w hw => Unquotes.lits fun c hc => (isPlain_cases ((isWord_cases hw).2 c hc)).2.1
  · intro a
    cases a with
    | word w => exact Unquotes.lits fun c hc => (isPlain_cases ((isWord_cases w.2).2 c hc)).2.1
    | quoted => exact Unquotes.quoted hs

theorem Line.backtick_not_mem (hs : backtick ∉ s) (L : Line) : backtick ∉ L.text s := by
  have hword : ∀ w : Text, isWord w = true → backtick ∉ w := by
    intro w hw hmem
    exact absurd (isPlain_cases ((isWord_cases hw).2 _ hmem)).2.1 (by decide)
  refine renderSegs_induction (P := fun t _ => backtick ∉ t) (g := Arg.value s) List.not_mem_nil
    (fun h h' => by simpa using ⟨h, h'⟩) (by simp [backtick]) hword ?_ L.rest L.first
  intro a
  cases a with
  | word w => exact hword w.1 w.2
  | quoted =>
    simp only [Arg.text, List.mem_cons, List.mem_append, List.not_mem_nil, or_false, not_or]
    exact ⟨by decide, hs, by decide⟩

/-! ## Parentheses -/

theorem depthAfter_cons (h : ¬(c = ')' ∧ d = 1)) :
    depthAfter d (c :: t) = depthAfter (if c = '(' then d + 1 else if c = ')' then d - 1 else d) t := if_neg h

theorem depthAfter_append : ∀ {t : Text} {d : Nat}, depthAfter d t = some d' → depthAfter d (t ++ u) = depthAfter d' u
  | [], d, h => by
    cases h
    rfl
  | c :: t, d, h => by
    by_cases hc : c = ')' ∧ d = 1
    · rw [depthAfter, if_pos hc] at h
      cases h
    rw [depthAfter_cons hc] at h
    rw [List.cons_append, depthAfter_cons hc]
    exact depthAfter_append h

/-- What is closed inside is closed deeper inside as well. -/
theorem depthAfter_deeper (k : Nat) : ∀ {t : Text} {d : Nat}, 1 ≤ d → depthAfter d t = some d' →
    depthAfter (d + k) t = some (d' + k)
  | [], d, _, h => by
    cases h
    rfl
  | c :: t, d, hd, h => by
    by_cases hc : c = ')' ∧ d = 1
    · rw [depthAfter, if_pos hc] at h
      cases h
    rw [depthAfter_cons hc] at h
    have hck : ¬(c = ')' ∧ d + k = 1) := fun hk => hc ⟨hk.1, by omega⟩
    rw [depthAfter_cons hck]
    by_cases ho : c = '('
    · rw [if_pos ho] at h ⊢
      rw [← depthAfter_deeper k (Nat.le_add_left 1 d) h]
      congr 1
      omega
    by_cases hcl : c = ')'
    · rw [if_neg ho, if_pos hcl] at h ⊢
      have hd2 : 1 ≤ d - 1 := by
        rcases Nat.eq_or_lt_of_le hd with hd1 | hd1
        · exact absurd ⟨hcl, hd1.symm⟩ hc
        · omega
      rw [← depthAfter_deeper k hd2 h]
      congr 1
      omega
    · rw [if_neg ho, if_neg hcl] at h ⊢
      exact depthAfter_deeper k hd h

/-- Every parenthesis in the text is closed in it. -/
def Balanced (t : Text) : Prop := ∀ d, 1 ≤ d → depthAfter d t = some d

theorem Balanced.of_one (h : depthAfter 1 t = some 1) : Balanced t := by
  intro d hd
  obtain ⟨k, rfl⟩ := Nat.exists_eq_add_of_le hd
  exact depthAfter_deeper k (Nat.le_refl 1) h

theorem Balanced.append (h : Balanced t) (h' : Balanced u) : Balanced (t ++ u) := by
  intro d hd
  rw [depthAfter_append (h d hd), h' d hd]

theorem Balanced.flat (h : ∀ c ∈ t, c ≠ '(' ∧ c ≠ ')') : Balanced t := by
  intro d _
  induction t with
  | nil => rfl
  | cons c t ih =>
    obtain ⟨h1, h2⟩ := h c List.mem_cons_self
    rw [depthAfter_cons (fun hc => h2 hc.1), if_neg h1, if_neg h2]
    exact ih fun c hc => h c (List.mem_cons_of_mem _ hc)

theorem Balanced.parens (h : Balanced t) : Balanced ('(' :: (t ++ [')'])) := by
  intro d hd
  have hopen : ¬('(' = ')' ∧ d = 1) := fun h => absurd h.1 (by decide)
  have hclose : ¬(')' = ')' ∧ d + 1 = 1) := fun h => by omega
  rw [depthAfter_cons hopen, if_pos rfl, depthAfter_append (h (d + 1) (Nat.le_add_left 1 d)), depthAfter_cons hclose]
  rfl

theorem isName_flat {w : Text} (h : isName w = true) : Balanced w :=
  Balanced.flat fun c hc => (isPlain_cases ((isWord_cases (isName_isWord h)).2 c hc)).2.2

theorem Line.balanced (hs : Balanced s) (L : Line) : Balanced (L.text s) := by
  have hsep : ∀ c ∈ [' ', '|', '&', ';'], c ≠ '(' ∧ c ≠ ')' := by simp
  have hword : ∀ w : Text, isWord w = true → Balanced w := fun w hw =>
    Balanced.flat fun c hc => (isPlain_cases ((isWord_cases hw).2 c hc)).2.2
  have hquote : Balanced ['\''] := Balanced.flat (by simp)
  refine renderSegs_induction (P := fun t _ => Balanced t) (g := Arg.value s) (Balanced.flat (List.forall_mem_nil _))
    Balanced.append ?_ hword ?_ L.rest L.first
  · exact fun c hc => Balanced.flat fun d hd => List.mem_singleton.1 hd ▸ hsep c hc
  · intro a
    cases a with
    | word w => exact hword w.1 w.2
    | quoted => exact hquote.append (hs.append hquote)

theorem isFlat_cases (h : isFlat t = true) : (∀ c ∈ t, isLit c = true) ∧ Balanced t := by
  simp only [isFlat, List.all_eq_true, Bool.and_eq_true, decide_eq_true_eq, and_assoc] at h
  exact ⟨fun c hc => (h c hc).1, Balanced.flat fun c hc => (h c hc).2⟩

theorem Script.balanced (hs : Balanced s) (h : Script s t) : Balanced t := by
  induction h with
  | line _ => exact Line.balanced hs _
  | @subst name q t r _ hq hr ih =>
    have hsep : Balanced [' '] := Balanced.flat (by simp)
    have hdollar : Balanced ['$'] := Balanced.flat (by simp)
    have htext : substText name q t r = name.1 ++ ([' '] ++ (q ++ (['$'] ++ ('(' :: (t ++ [')']) ++ r)))) := by
      simp [substText]
    rw [htext]
    exact (isName_flat name.2).append (hsep.append ((isFlat_cases hq).2.append (hdollar.append
      (ih.parens.append (isFlat_cases hr).2))))

/-! ## The tokens of a segment -/

/-- A text the tokeniser makes one argument of. -/
structure Token (t : Text) : Prop where
  ne : t ≠ []
  isTok : ∀ c ∈ t, isTok c = true
  lt : t.length < maxLine

theorem addArg_of (ht : t ≠ []) (h : cur.argv.length < maxArgs - 1) :
    addArg cur t = { cur with argv := cur.argv ++ [t] } := if_pos ⟨ht, h⟩

theorem Tokens.arg (ht : Token t) (hargc : cur.argv.length < maxArgs - 1) (hp : p = [] ∨ ∃ q, p = ' ' :: q)
    (h : Tokens nc { cur with argv := cur.argv ++ [t] } p cmds) : Tokens nc cur (t ++ p) cmds := by
  refine Tokens.word ht.ne ht.isTok ht.lt ?_ (by rwa [addArg_of ht.ne hargc])
  rintro d q rfl
  rcases hp with hp | ⟨q', hp⟩
  · cases hp
  · cases hp
    exact ⟨rfl, by decide⟩

theorem Tokens.args {args : List Arg} (hargs : ∀ a ∈ args, Token (a.value s)) (hp : p = [] ∨ ∃ q, p = ' ' :: q) :
    ∀ {cur : Cmd}, cur.argv.length + args.length < maxArgs →
      Tokens nc { cur with argv := cur.argv ++ args.map (Arg.value s) } p cmds →
      Tokens nc cur ((args.flatMap fun a => ' ' :: a.value s) ++ p) cmds := by
  induction args with
  | nil =>
    intro cur _ h
    simpa using h
  | cons a l ih =>
    intro cur hargc h
    simp only [List.length_cons] at hargc
    simp only [List.flatMap_cons, List.cons_append, List.append_assoc]
    refine Tokens.blank (by decide) (Tokens.arg (hargs a List.mem_cons_self) (by simp only [maxArgs] at *; omega) ?_ ?_)
    · cases l with
      | nil => exact hp
      | cons b l => exact Or.inr ⟨_, rfl⟩
    · refine ih (fun b hb => hargs b (List.mem_cons_of_mem _ hb)) ?_ (by simpa using h)
      simp only [List.length_append, List.length_singleton]
      omega

/-- The command is within the tables, and its arguments are tokens. -/
structure Command.Ok (s : Text) (c : Command) : Prop where
  name : Token c.name.1
  args : ∀ a ∈ c.args, Token (a.value s)
  argc : c.args.length + 1 < maxArgs

theorem Tokens.command {c : Command} (hc : c.Ok s) (hp : p = [] ∨ ∃ q, p = ' ' :: q)
    (h : Tokens nc { argv := c.argv s } p cmds) : Tokens nc {} (c.render (Arg.value s) ++ p) cmds := by
  rw [Command.render, List.append_assoc]
  refine Tokens.arg hc.name (by decide) ?_ (Tokens.args hc.args hp ?_ h)
  · cases c.args with
    | nil => exact hp
    | cons a l => exact Or.inr ⟨_, rfl⟩
  · simpa [Nat.add_comm] using hc.argc

theorem Tokens.segment : ∀ {l : List (Link × Command)} {c : Command} {nc : Nat}, nc + l.length < maxCmds →
    (∀ d ∈ c :: l.map Prod.snd, d.Ok s) → Tokens nc {} (renderFrom (Arg.value s) c l) (cmdsFrom s c l)
  | [], c, nc, _, hok => by
    rw [renderFrom, ← List.append_nil (c.render _)]
    exact Tokens.command (hok c List.mem_cons_self) (Or.inl rfl) Tokens.nil
  | (k, d) :: l, c, nc, hnc, hok => by
    simp only [List.length_cons] at hnc
    refine Tokens.command (hok c List.mem_cons_self) (Or.inr ⟨_, rfl⟩) (Tokens.blank (by decide) ?_)
    refine Tokens.connector k.2 (by omega) ⟨_, rfl⟩ (Tokens.blank (by decide) ?_)
    exact Tokens.segment (by omega) fun e he => hok e (List.mem_cons_of_mem _ he)

theorem cmdsFrom_head (l : List (Link × Command)) (c : Command) : ∃ cur l', cmdsFrom s c l = cur :: l' ∧ cur.argv ≠ [] := by
  cases l with
  | nil => exact ⟨_, _, rfl, List.cons_ne_nil _ _⟩
  | cons kd l => exact ⟨_, _, rfl, List.cons_ne_nil _ _⟩

theorem tokenize_of_tokens {cur : Cmd} {l : List Cmd} (h : Tokens 0 {} p (cur :: l)) (hne : cur.argv ≠ []) :
    tokenize p = some (cur :: l) := by
  rw [tokenize, h _ (Nat.le_refl _), Option.map_some]
  cases l with
  | nil => simp only [if_neg hne]
  | cons d l => rfl

/-! ## The arguments as they are -/

section Exec

variable {expand : Text → Run ω Text} {c : Cmd}

theorem expandArgs_eq_pure : ∀ {l : List Text}, (∀ a ∈ l, expand a = pure a) → expandArgs expand l = pure l
  | [], _ => rfl
  | a :: l, h => by
    rw [expandArgs, h a List.mem_cons_self, pure_bind, expandArgs_eq_pure fun b hb => h b (List.mem_cons_of_mem _ hb)]
    rfl

theorem argvOf_congr (h : ∀ a ∈ c.argv, expand a = pure a) : argvOf expand c = argvOf pure c := by
  unfold argvOf
  rw [expandArgs_eq_pure fun a ha => h a (List.mem_of_mem_take ha), expandArgs_eq_pure fun _ _ => rfl]

theorem forkAll_congr (i : Nat) (h : ∀ c ∈ cmds, ∀ a ∈ c.argv, expand a = pure a) :
    forkAll W expand σ i cmds = forkAll W pure σ i cmds := by
  induction cmds generalizing i with
  | nil => rfl
  | cons c l ih =>
    have hchild : child W expand σ i c = child W pure σ i c := by
      unfold child
      rw [argvOf_congr (h c List.mem_cons_self)]
    simp only [forkAll, hchild, ih (i + 1) fun d hd => h d (List.mem_cons_of_mem _ hd)]

theorem forkAndWait_congr {background : Bool} (h : ∀ c ∈ cmds, ∀ a ∈ c.argv, expand a = pure a) :
    forkAndWait W expand cmds background = forkAndWait W pure cmds background := by
  funext σ
  simp only [forkAndWait, forkAll_congr 0 h]

theorem execCmd_congr (h : ∀ a ∈ c.argv, expand a = pure a) : execCmd W expand c = execCmd W pure c := by
  unfold execCmd
  cases hargv : c.argv with
  | nil => rfl
  | cons a l =>
    have ha : expand a = pure a := h a (by rw [hargv]; exact List.mem_cons_self)
    have hfork : forkAndWait W expand [c] c.background = forkAndWait W pure [c] c.background :=
      forkAndWait_congr fun d hd => List.mem_singleton.1 hd ▸ h
    simp only [ha, argvOf_congr h, hfork]

theorem execPipeline_congr (h : ∀ c ∈ cmds, ∀ a ∈ c.argv, expand a = pure a) :
    execPipeline W expand cmds = execPipeline W pure cmds := by
  match cmds with
  | [] => rfl
  | [c] => exact execCmd_congr (h c List.mem_cons_self)
  | c :: d :: l => exact forkAndWait_congr h

theorem splitPipe_append (c : Cmd) (l : List Cmd) :
    (splitPipe c l).1 ++ (splitPipe c l).2.1 :: (splitPipe c l).2.2 = c :: l := by
  induction l generalizing c with
  | nil => rfl
  | cons d l ih =>
    by_cases hc : c.connector = .pipe
    · simp only [splitPipe, if_pos hc, List.cons_append, ih d]
    · simp only [splitPipe, if_neg hc, List.nil_append]

/-- **Where every argument expands to itself**, the commands are run with their arguments as they are. -/
theorem execChain_congr {n : Nat} {result : Int} (h : ∀ c ∈ cmds, ∀ a ∈ c.argv, expand a = pure a) :
    execChain W expand n result cmds = execChain W pure n result cmds := by
  induction n generalizing result cmds with
  | zero => rfl
  | succ n ih =>
    cases cmds with
    | nil => rfl
    | cons c l =>
      have hsplit := splitPipe_append c l
      rw [← hsplit] at h
      have hstages : ∀ d ∈ (splitPipe c l).1 ++ [(splitPipe c l).2.1], ∀ a ∈ d.argv, expand a = pure a := by
        intro d hd
        refine h d ?_
        simp only [List.mem_append, List.mem_cons, List.not_mem_nil, or_false] at hd ⊢
        exact hd.imp_right Or.inl
      have hrest : ∀ d ∈ (splitPipe c l).2.2, ∀ a ∈ d.argv, expand a = pure a := fun d hd =>
        h d (List.mem_append_right _ (List.mem_cons_of_mem _ hd))
      simp only [execChain, execPipeline_congr hstages, ih hrest]

end Exec

theorem forkAndWait_events {expand : Text → Run ω Text} {background : Bool} :
    (forkAndWait W expand cmds background σ).1 = (forkAll W expand σ 0 cmds).1 := by
  simp only [forkAndWait]
  split
  · rfl
  split <;> rfl

/-! ## What a line starts -/

section Invokes

variable {e : Event}

/-- Every event of the action starts one of the commands, with its arguments as they are. -/
def Invokes {α : Type} (cmds : List Cmd) (x : Run ω α) : Prop := ∀ σ, ∀ e ∈ (x σ).1, ∃ c ∈ cmds, e = .invoke c.argv

theorem Invokes.bind {α β : Type} {x : Run ω α} {f : α → Run ω β} (hx : Invokes cmds x) (hf : ∀ a, Invokes cmds (f a)) :
    Invokes cmds (x >>= f) := by
  intro σ e he
  rcases Act.mem_bind he with h | ⟨a, σ', h⟩
  · exact hx σ e h
  · exact hf a σ' e h

theorem Invokes.silent {α : Type} {x : Run ω α} (h : ∀ σ, (x σ).1 = []) : Invokes cmds x := by
  intro σ e he
  rw [h σ] at he
  cases he

theorem Invokes.mono {α : Type} {x : Run ω α} {l : List Cmd} (h : Invokes l x) (hl : ∀ c ∈ l, c ∈ cmds) : Invokes cmds x := by
  intro σ e he
  obtain ⟨c, hc, heq⟩ := h σ e he
  exact ⟨c, hl c hc, heq⟩

theorem argvOf_pure {c : Cmd} (h : c.argv.length < maxArgs) : argvOf (pure : Text → Run ω Text) c = pure c.argv := by
  rw [argvOf, expandArgs_eq_pure fun _ _ => rfl, List.take_of_length_le (Nat.le_sub_one_of_lt h)]

theorem forkAll_invokes (i : Nat) (h : ∀ c ∈ cmds, c.argv.length < maxArgs) :
    ∀ e ∈ (forkAll W pure σ i cmds).1, ∃ c ∈ cmds, e = .invoke c.argv := by
  induction cmds generalizing i with
  | nil =>
    intro e he
    cases he
  | cons c l ih =>
    obtain ⟨hc, hl⟩ := List.forall_mem_cons.1 h
    have hchild : ∀ e ∈ (child W pure σ i c).1, e = .invoke c.argv := by
      intro e he
      rw [child, argvOf_pure hc] at he
      split at he
      · cases hargv : c.argv with
        | nil =>
          rw [hargv] at he
          cases he
        | cons a argv =>
          rw [hargv] at he
          exact List.mem_singleton.1 he
      · cases he
    intro e he
    rw [forkAll] at he
    split at he
    · rcases List.mem_append.1 he with he | he
      · exact ⟨c, List.mem_cons_self, hchild e he⟩
      · obtain ⟨d, hd, heq⟩ := ih (i + 1) hl e he
        exact ⟨d, List.mem_cons_of_mem _ hd, heq⟩
    · cases he

theorem forkAndWait_invokes {background : Bool} (h : ∀ c ∈ cmds, c.argv.length < maxArgs) :
    Invokes cmds (forkAndWait W pure cmds background) := by
  intro σ e he
  rw [forkAndWait_events] at he
  exact forkAll_invokes 0 h e he

theorem execPipeline_invokes (h : ∀ c ∈ cmds, c.argv.length < maxArgs) : Invokes cmds (execPipeline W pure cmds) := by
  match cmds with
  | [] => exact Invokes.silent fun _ => rfl
  | [c] =>
    rw [execPipeline, execCmd]
    cases hargv : c.argv with
    | nil => exact Invokes.silent fun _ => rfl
    | cons a argv =>
      simp only [pure_bind, argvOf_pure (h c List.mem_cons_self)]
      split
      · exact fun σ e he => ⟨c, List.mem_cons_self, List.mem_singleton.1 he⟩
      · exact forkAndWait_invokes h
  | c :: d :: l => exact forkAndWait_invokes h

theorem execChain_invokes {result : Int} (h : ∀ c ∈ cmds, c.argv.length < maxArgs) :
    Invokes cmds (execChain W pure n result cmds) := by
  induction n generalizing result cmds with
  | zero => exact Invokes.silent fun _ => rfl
  | succ n ih =>
    cases cmds with
    | nil => exact Invokes.silent fun _ => rfl
    | cons c l =>
      have hsplit := splitPipe_append c l
      have hstages : ∀ d ∈ (splitPipe c l).1 ++ [(splitPipe c l).2.1], d ∈ c :: l := by
        intro d hd
        rw [← hsplit]
        simp only [List.mem_append, List.mem_cons, List.not_mem_nil, or_false] at hd ⊢
        exact hd.imp_right Or.inl
      have hrest : ∀ d ∈ (splitPipe c l).2.2, d ∈ c :: l := fun d hd =>
        hsplit ▸ List.mem_append_right _ (List.mem_cons_of_mem _ hd)
      rw [execChain]
      refine Invokes.bind ((execPipeline_invokes fun d hd => h d (hstages d hd)).mono hstages) fun r => ?_
      refine Invokes.bind (Invokes.silent fun _ => rfl) fun _ => ?_
      split
      · exact Invokes.silent fun _ => rfl
      · exact (ih fun d hd => h d (hrest d hd)).mono hrest

end Invokes

/-! ## The ends of a line -/

/-- The text begins with the name of a command. -/
def Begins (t : Text) : Prop := ∃ (name : Name) (q : Text), t = name.1 ++ q ∧ (q = [] ∨ ∃ r, q = ' ' :: r)

/-- The last character is no white space that `trim_ws` would take. -/
def Ends (t : Text) : Prop := ∃ q c, t = q ++ [c] ∧ isSpace c = false

theorem Ends.append (p : Text) (h : Ends t) : Ends (p ++ t) := by
  obtain ⟨q, c, rfl, hc⟩ := h
  exact ⟨p ++ q, c, by rw [List.append_assoc], hc⟩

theorem Ends.cons (c : Char) (h : Ends t) : Ends (c :: t) := Ends.append [c] h

theorem isSpace_of_isTok (h : isTok c = true) : isSpace c = false := by
  obtain ⟨h, -⟩ := isTok_cases h
  simp only [endsWord, Bool.or_eq_false_iff] at h
  exact h.1.1.1.1.1

theorem Ends.tok (hne : t ≠ []) (h : ∀ c ∈ t, isTok c = true) : Ends t :=
  ⟨t.dropLast, t.getLast hne, (List.dropLast_concat_getLast hne).symm, isSpace_of_isTok (h _ (List.getLast_mem hne))⟩

theorem word_isTok {w : Text} (h : isWord w = true) : ∀ c ∈ w, isTok c = true := fun c hc =>
  (isPlain_cases ((isWord_cases h).2 c hc)).1

section Render

variable {f : Arg → Text}

theorem Command.ends (hf : ∀ a, Ends (f a)) (c : Command) : Ends (c.render f) := by
  have hargs : ∀ (l : List Arg) (p : Text), Ends p → Ends (p ++ l.flatMap fun a => ' ' :: f a) := by
    intro l
    induction l with
    | nil =>
      intro p hp
      simpa using hp
    | cons a l ih =>
      intro p _
      rw [List.flatMap_cons, ← List.append_assoc]
      exact ih _ (Ends.append p (Ends.cons ' ' (hf a)))
  have hname := isName_isWord c.name.2
  exact hargs c.args _ (Ends.tok (isWord_cases hname).1 (word_isTok hname))

theorem renderFrom_ends (hf : ∀ a, Ends (f a)) : ∀ (l : List (Link × Command)) (c : Command), Ends (renderFrom f c l)
  | [], c => c.ends hf
  | (k, d) :: l, _ =>
    Ends.append _ (Ends.cons ' ' (Ends.append k.1.text (Ends.cons ' ' (renderFrom_ends hf l d))))

theorem renderSegs_ends (hf : ∀ a, Ends (f a)) : ∀ (l : List Segment) (seg : Segment), Ends (renderSegs f seg l)
  | [], seg => renderFrom_ends hf seg.rest seg.first
  | seg' :: l, _ => Ends.append _ (Ends.cons ' ' (Ends.cons ';' (Ends.cons ' ' (renderSegs_ends hf l seg'))))

theorem Begins.append (h : Begins t) (hp : p = [] ∨ ∃ q, p = ' ' :: q) : Begins (t ++ p) := by
  obtain ⟨name, q, rfl, hq⟩ := h
  refine ⟨name, q ++ p, List.append_assoc .., ?_⟩
  rcases hq with rfl | ⟨r, rfl⟩
  · exact hp
  · exact Or.inr ⟨r ++ p, rfl⟩

theorem Command.begins (f : Arg → Text) (c : Command) : Begins (c.render f) := by
  refine ⟨c.name, _, rfl, ?_⟩
  cases c.args with
  | nil => exact Or.inl rfl
  | cons a l => exact Or.inr ⟨_, rfl⟩

theorem Segment.begins (f : Arg → Text) (seg : Segment) : Begins (seg.render f) := by
  obtain ⟨c, l⟩ := seg
  cases l with
  | nil => exact c.begins f
  | cons kd l => exact (c.begins f).append (Or.inr ⟨_, rfl⟩)

theorem renderSegs_begins (f : Arg → Text) (seg : Segment) (l : List Segment) : Begins (renderSegs f seg l) := by
  cases l with
  | nil => exact seg.begins f
  | cons seg' l => exact (seg.begins f).append (Or.inr ⟨_, rfl⟩)

end Render

/-- The text is run as a command: it begins with no blank, no `#` and no keyword. -/
theorem Begins.cons (h : Begins t) : ∃ c q, t = c :: q ∧ isBlank c = false ∧ c ≠ '#' ∧ isFlow (c :: q) = false := by
  obtain ⟨⟨w, hw⟩, r, rfl, hr⟩ := h
  have htok := word_isTok (isName_isWord hw)
  have hspan : (w ++ r).takeWhile (· ≠ ' ') = w := by
    have hword : ∀ c ∈ w, (decide (c ≠ ' ')) = true := by
      rintro c hc
      refine decide_eq_true ?_
      rintro rfl
      exact absurd (htok ' ' hc) (by decide)
    rw [List.takeWhile_append_of_pos hword]
    rcases hr with rfl | ⟨q, rfl⟩
    · simp
    · simp
  have hfront : ∀ k : Text, (∀ c ∈ k, c ≠ ' ') → w ≠ k → (k ++ [' ']).isPrefixOf (w ++ r) = false := by
    intro k hk hne
    rw [Bool.eq_false_iff]
    intro hpre
    obtain ⟨x, hx⟩ := List.isPrefixOf_iff_prefix.1 hpre
    rw [← hx, List.append_assoc, List.takeWhile_append_of_pos fun c hc => decide_eq_true (hk c hc)] at hspan
    exact hne (by simpa using hspan.symm)
  simp only [isName, Bool.and_eq_true, decide_eq_true_eq] at hw
  obtain ⟨⟨⟨⟨hword, hhash⟩, hfor⟩, hwhile⟩, hif⟩ := hw
  have hflow : isFlow (w ++ r) = false := by
    simp only [isFlow, Bool.or_eq_false_iff, decide_eq_false_iff_not]
    refine ⟨⟨⟨hfront ['f', 'o', 'r'] (by simp) hfor, hfront ['w', 'h', 'i', 'l', 'e'] (by simp) hwhile⟩,
      hfront ['i', 'f'] (by simp) hif⟩, fun heq => hif ?_⟩
    rw [← hspan, heq]
    rfl
  obtain ⟨c, q, rfl⟩ := List.exists_cons_of_ne_nil (isWord_cases hword).1
  have hc := isSpace_of_isTok (htok c List.mem_cons_self)
  simp only [isSpace, Bool.or_eq_false_iff] at hc
  exact ⟨c, q ++ r, rfl, by simp [isBlank, hc], fun h => hhash (by rw [h]; rfl), hflow⟩

/-- **`trim_ws` leaves the text alone**, but for the blanks around it. -/
theorem trimWs_append (ht : Begins t) (ht' : Ends t) {b b' : Text} (hb : ∀ c ∈ b, isBlank c = true)
    (hb' : ∀ c ∈ b', isBlank c = true) : trimWs (b ++ (t ++ b')) = t := by
  have hleft : (b ++ (t ++ b')).dropWhile isBlank = t ++ b' := by
    obtain ⟨c, q, rfl, hc, -⟩ := ht.cons
    rw [List.dropWhile_append_of_pos hb]
    exact List.dropWhile_cons_of_neg (by simp [hc])
  obtain ⟨q, c, rfl, hc⟩ := ht'
  simp only [isSpace, Bool.or_eq_false_iff] at hc
  rw [trimWs, hleft, List.reverse_append, List.dropWhile_append_of_pos fun d hd => by simp [hb' d (List.mem_reverse.1 hd)],
    List.reverse_append, List.reverse_singleton, List.singleton_append, List.dropWhile_cons_of_neg (by simp [isBlank, hc])]
  simp

theorem trimWs_self (ht : Begins t) (ht' : Ends t) : trimWs t = t := by
  simpa using trimWs_append ht ht' (List.forall_mem_nil _) (List.forall_mem_nil _)

/-! ## Running a line -/

theorem execSimple_of_tokens {cur : Cmd} {l : List Cmd} (ht : Begins t) (h : tokenize t = some (cur :: l)) :
    execSimple W t = execChain W (shellExpand W) (cur :: l).length 0 (cur :: l) := by
  obtain ⟨c, q, rfl, hc, hhash, -⟩ := ht.cons
  unfold execSimple
  rw [List.dropWhile_cons_of_neg (by simp [hc])]
  simp only [if_neg hhash, h]

/-- The values of a segment are within the tables, and expand to themselves. -/
structure Segment.Ok (s : Text) (seg : Segment) : Prop where
  cmds : seg.rest.length < maxCmds
  commands : ∀ c ∈ seg.commands, c.Ok s
  inert : ∀ c ∈ seg.commands, ∀ a ∈ c.argv s, inert a = true ∧ a.length < maxLine

theorem mem_cmdsFrom {cur : Cmd} : ∀ {l : List (Link × Command)} {c : Command}, cur ∈ cmdsFrom s c l →
    ∃ d ∈ c :: l.map Prod.snd, cur.argv = d.argv s
  | [], c, h => ⟨c, List.mem_cons_self, by rw [List.mem_singleton.1 h]; rfl⟩
  | (k, d) :: l, c, h => by
    rcases List.mem_cons.1 h with rfl | h
    · exact ⟨c, List.mem_cons_self, rfl⟩
    · obtain ⟨e, he, heq⟩ := mem_cmdsFrom h
      exact ⟨e, List.mem_cons_of_mem _ he, heq⟩

theorem runSegs_invokes {α : Type} {exec : α → Run ω Int} {skip : α → Bool} : ∀ {l : List α} {ret : Int},
    (∀ a ∈ l, Invokes cmds (exec a)) → Invokes cmds (runSegs exec skip ret l)
  | [], _, _ => Invokes.silent fun _ => rfl
  | a :: l, ret, h => by
    obtain ⟨ha, hl⟩ := List.forall_mem_cons.1 h
    have hrest : ∀ ret, Invokes cmds (do if ← Act.reads State.stop then return ret else runSegs exec skip ret l) := by
      intro ret
      refine Invokes.bind (Invokes.silent fun _ => rfl) fun stop => ?_
      split
      · exact Invokes.silent fun _ => rfl
      · exact runSegs_invokes hl
    rw [runSegs]
    split
    · exact hrest ret
    · exact ha.bind fun r => (Invokes.silent fun _ => rfl).bind fun _ => hrest r

/-- **What a line starts**: commands of it, each with its name and its arguments as they are. -/
theorem Line.run_invokes {L : Line} (h : L.Fits s) {e : Event} (he : e ∈ (L.run W s σ).1) :
    ∃ seg ∈ L.first :: L.rest, ∃ c ∈ seg.commands, e = .invoke (c.argv s) := by
  have hseg : ∀ seg ∈ L.first :: L.rest, Invokes (seg.toCmds s) (seg.run W s) := by
    intro seg hseg
    refine execChain_invokes fun cur hcur => ?_
    obtain ⟨c, hc, hargv⟩ := mem_cmdsFrom hcur
    rw [hargv, Command.argv, List.length_cons, List.length_map]
    exact h.args seg hseg c hc
  have hline : Invokes ((L.first :: L.rest).flatMap (Segment.toCmds s)) (L.run W s) := by
    have hmono : ∀ seg ∈ L.first :: L.rest, Invokes ((L.first :: L.rest).flatMap (Segment.toCmds s)) (seg.run W s) :=
      fun seg hmem => (hseg seg hmem).mono fun c hc => List.mem_flatMap.2 ⟨seg, hmem, hc⟩
    obtain ⟨seg, l⟩ := L
    cases l with
    | nil => exact hmono seg List.mem_cons_self
    | cons seg' l => exact runSegs_invokes hmono
  obtain ⟨cur, hcur, rfl⟩ := hline σ e he
  obtain ⟨seg, hmem, hcur⟩ := List.mem_flatMap.1 hcur
  obtain ⟨c, hc, hargv⟩ := mem_cmdsFrom hcur
  exact ⟨seg, hmem, c, hc, by rw [hargv]⟩

/-- **A segment is run as it reads.** -/
theorem execSimple_segment {seg : Segment} (h : seg.Ok s) :
    execSimple W (seg.render (Arg.value s)) = seg.run W s := by
  obtain ⟨cur, l, hcmds, hne⟩ := cmdsFrom_head (s := s) seg.rest seg.first
  have htokens : Tokens 0 {} (seg.render (Arg.value s)) (cmdsFrom s seg.first seg.rest) :=
    Tokens.segment (by simpa using h.cmds) h.commands
  have hpure : ∀ d ∈ cmdsFrom s seg.first seg.rest, ∀ a ∈ d.argv, shellExpand W a = pure a := by
    intro d hd a ha
    obtain ⟨e, he, heq⟩ := mem_cmdsFrom hd
    obtain ⟨hi, hlen⟩ := h.inert e he a (heq ▸ ha)
    exact shellExpand_inert hi hlen
  rw [hcmds] at htokens hpure
  rw [execSimple_of_tokens (seg.begins _) (tokenize_of_tokens htokens hne), execChain_congr hpure, Segment.run, Segment.toCmds,
    hcmds]

/-- A character that neither quotes nor separates in the split at `;`. -/
def isSegChar (c : Char) : Bool := c ≠ '\'' && c ≠ '"' && c ≠ ';'

theorem isSegChar_of_isTok (h : isTok c = true) : isSegChar c = true := by
  obtain ⟨h, h1, h2, -⟩ := isTok_cases h
  simp only [endsWord, Bool.or_eq_false_iff, decide_eq_false_iff_not] at h
  simp [isSegChar, h1, h2, h.2]

theorem readSeg_cons {n : Nat} (h : isSegChar c = true) :
    readSeg false false (n + 1) (c :: t) = push c (readSeg false false n t) := by
  obtain ⟨h1, h2, h3⟩ : c ≠ '\'' ∧ c ≠ '"' ∧ c ≠ ';' := by simpa [isSegChar, and_assoc] using h
  rw [readSeg, if_neg (fun h => h1 h.1), if_neg (fun h => h2 h.1), if_neg (fun h => h3 h.1)]

theorem readSeg_append : ∀ {t : Text} {n : Nat}, (∀ c ∈ t, isSegChar c = true) → t.length < n →
    readSeg false false n t = (t, []) ∧ readSeg false false n (t ++ ';' :: p) = (t, p)
  | [], n + 1, _, _ => ⟨rfl, rfl⟩
  | c :: t, n + 1, h, hn => by
    obtain ⟨h1, h2⟩ := readSeg_append (fun d hd => h d (List.mem_cons_of_mem _ hd)) (Nat.lt_of_succ_lt_succ hn)
    rw [List.cons_append, readSeg_cons (h c List.mem_cons_self), readSeg_cons (h c List.mem_cons_self), h1, h2]
    exact ⟨rfl, rfl⟩

theorem Segment.isSegChar (seg : Segment) (hs : ∀ c ∈ s, isTok c = true) : ∀ c ∈ seg.render (Arg.value s), isSegChar c = true := by
  have hword : ∀ w : Text, isWord w = true → ∀ c ∈ w, Sh.isSegChar c = true := fun w hw c hc =>
    isSegChar_of_isTok (word_isTok hw c hc)
  refine Segment.render_induction (P := fun t _ => ∀ c ∈ t, Sh.isSegChar c = true) (g := Arg.value s) (List.forall_mem_nil _)
    (fun h h' c hc => (List.mem_append.1 hc).elim (h c) (h' c)) ?_ hword ?_ seg
  · simp [Sh.isSegChar]
  intro a
  cases a with
  | word w => exact hword w.1 w.2
  | quoted => exact fun c hc => isSegChar_of_isTok (hs c hc)

theorem segments_succ {seg rest : Text} (hne : t ≠ []) (h : readSeg false false (maxLine - 1) t = (seg, rest)) :
    segments (fuel + 1) t = trimWs seg :: segments fuel rest := by
  obtain ⟨c, t, rfl⟩ := List.exists_cons_of_ne_nil hne
  rw [segments, h]

section Split

variable (hs : ∀ c ∈ s, isTok c = true) (hends : ∀ a : Arg, Ends (a.value s))
include hs hends

/-- The value of a segment between blanks is read up to the `;` behind it, and trimmed. -/
theorem segments_step {seg : Segment} {b : Text} (hb : ∀ c ∈ b, isBlank c = true)
    (hlen : (b ++ seg.render (Arg.value s)).length + 2 < maxLine) :
    segments (fuel + 1) (b ++ seg.render (Arg.value s)) = [seg.render (Arg.value s)] ∧
      segments (fuel + 1) (b ++ (seg.render (Arg.value s) ++ ' ' :: ';' :: p)) =
        seg.render (Arg.value s) :: segments fuel p := by
  have hbegins := seg.begins (Arg.value s)
  have hend : Ends (seg.render (Arg.value s)) := renderFrom_ends hends _ _
  have hne : seg.render (Arg.value s) ≠ [] := by
    obtain ⟨q, c, heq, -⟩ := hend
    simp [heq]
  have hbchar : ∀ c ∈ b, isSegChar c = true := by
    intro c hc
    have := hb c hc
    simp only [isBlank, Bool.or_eq_true, decide_eq_true_eq] at this
    rcases this with rfl | rfl <;> decide
  have hchar : ∀ c ∈ b ++ seg.render (Arg.value s), isSegChar c = true := fun c hc =>
    (List.mem_append.1 hc).elim (hbchar c) (seg.isSegChar hs c)
  have hchar' : ∀ c ∈ b ++ seg.render (Arg.value s) ++ [' '], isSegChar c = true := fun c hc =>
    (List.mem_append.1 hc).elim (hchar c) fun h => List.mem_singleton.1 h ▸ rfl
  have htext : b ++ (seg.render (Arg.value s) ++ ' ' :: ';' :: p) = (b ++ seg.render (Arg.value s) ++ [' ']) ++ ';' :: p := by
    simp
  have hread := (readSeg_append (p := p) hchar (n := maxLine - 1) (by omega)).1
  have hread' := (readSeg_append (p := p) hchar' (n := maxLine - 1) (by
    simp only [List.length_append, List.length_singleton] at hlen ⊢
    omega)).2
  constructor
  · rw [segments_succ (by simp [hne]) hread]
    have htrim := trimWs_append hbegins hend hb (List.forall_mem_nil _)
    rw [List.append_nil] at htrim
    rw [htrim]
    cases fuel <;> rfl
  · have hblank : ∀ c ∈ [' '], isBlank c = true := List.all_eq_true.1 (by decide)
    have htrim := trimWs_append hbegins hend hb hblank
    rw [htext, segments_succ (by simp) hread', List.append_assoc, htrim]

/-- **The split at `;` finds the segments of the line.** -/
theorem segments_render : ∀ {l : List Segment} {seg : Segment} {b : Text} {fuel : Nat}, (∀ c ∈ b, isBlank c = true) →
    (b ++ renderSegs (Arg.value s) seg l).length + 2 < maxLine → (b ++ renderSegs (Arg.value s) seg l).length ≤ fuel →
    segments fuel (b ++ renderSegs (Arg.value s) seg l) = (seg :: l).map fun seg => seg.render (Arg.value s)
  | [], seg, b, fuel, hb, hlen, hfuel => by
    have hpos : 0 < (renderSegs (Arg.value s) seg []).length := by
      obtain ⟨q, c, heq, -⟩ := renderSegs_ends hends [] seg
      simp [heq]
    obtain ⟨fuel, rfl⟩ : ∃ m, fuel = m + 1 := ⟨fuel - 1, by simp only [List.length_append] at hfuel; omega⟩
    exact (segments_step (p := []) hs hends hb hlen).1
  | seg' :: l, seg, b, fuel, hb, hlen, hfuel => by
    simp only [renderSegs, List.length_append, List.length_cons] at hlen hfuel
    obtain ⟨fuel, rfl⟩ : ∃ m, fuel = m + 1 := ⟨fuel - 1, by omega⟩
    rw [renderSegs, (segments_step hs hends hb (by simp only [List.length_append]; omega)).2]
    have ih : segments fuel (' ' :: renderSegs (Arg.value s) seg' l) = (seg' :: l).map fun seg => seg.render (Arg.value s) :=
      segments_render (b := [' ']) (List.all_eq_true.1 (by decide)) (by simp only [List.length_append, List.length_singleton]; omega)
        (by simp only [List.length_append, List.length_singleton]; omega)
    rw [ih]
    rfl

end Split

theorem take_of_lt (h : t.length < maxLine) : t.take (maxLine * 8 - 1) = t :=
  List.take_of_length_le (by simp only [maxLine] at *; omega)

/-- **A line is expanded** when nothing in front of it makes it something else. -/
theorem shRun_begins (hlen : t.length < maxLine) (htrim : trimWs t = u) (hu : Begins u) :
    shRun W t = (do
      let expanded ← expandVars W (maxLine * 4) u
      if ';' ∉ expanded then execSimple W expanded
      else runSegs (execSimple W) List.isEmpty 0 (segments expanded.length expanded)) := by
  obtain ⟨c, q, rfl, -, hhash, hflow⟩ := hu.cons
  rw [shRun, take_of_lt hlen, htrim]
  simp only [if_neg hhash, hflow]
  rfl

theorem runSegs_congr {α β : Type} {exec : α → Run ω Int} {exec' : β → Run ω Int} {skip : α → Bool} {skip' : β → Bool}
    {f : β → α} : ∀ {l : List β} {ret : Int}, (∀ b ∈ l, exec (f b) = exec' b ∧ skip (f b) = skip' b) →
    runSegs exec skip ret (l.map f) = runSegs exec' skip' ret l
  | [], _, _ => rfl
  | b :: l, ret, h => by
    obtain ⟨hexec, hskip⟩ := h b List.mem_cons_self
    have ih : ∀ ret, runSegs exec skip ret (l.map f) = runSegs exec' skip' ret l := fun ret =>
      runSegs_congr fun d hd => h d (List.mem_cons_of_mem _ hd)
    simp only [List.map_cons, runSegs, hexec, hskip, ih]

/-- **A line whose segments are within the tables is run as it reads.** -/
theorem shRun_line {L : Line} (hq : '\'' ∉ s) (hne : s ≠ []) (htok : ∀ c ∈ s, isTok c = true)
    (hok : ∀ seg ∈ L.first :: L.rest, seg.Ok s) (hlen : (L.text s).length < maxLine) : shRun W (L.text s) = L.run W s := by
  have hends : ∀ a : Arg, Ends (a.value s) := by
    intro a
    cases a with
    | word w => exact Ends.tok (isWord_cases w.2).1 (word_isTok w.2)
    | quoted => exact Ends.tok hne htok
  have htextEnds : Ends (L.text s) := by
    refine renderSegs_ends (fun a => ?_) L.rest L.first
    cases a with
    | word w => exact Ends.tok (isWord_cases w.2).1 (word_isTok w.2)
    | quoted => exact ⟨'\'' :: s, '\'', rfl, rfl⟩
  have hbegins : Begins (L.text s) := renderSegs_begins _ L.first L.rest
  have hunq := L.unquotes hq
  have hle := hunq.length_le
  have hexp : expandVars W (maxLine * 4) (L.text s) = pure (renderSegs (Arg.value s) L.first L.rest) :=
    hunq.expandLoop (Nat.le_refl _) (by simp only [maxLine] at *; omega)
  rw [shRun_begins hlen (trimWs_self hbegins htextEnds) hbegins, hexp, pure_bind]
  obtain ⟨seg, l⟩ := L
  cases l with
  | nil =>
    have hsemi : ';' ∉ renderSegs (Arg.value s) seg [] := fun h =>
      absurd (seg.isSegChar htok _ h) (by decide)
    rw [if_pos hsemi]
    exact execSimple_segment (hok seg List.mem_cons_self)
  | cons seg' l =>
    have hsemi : ';' ∈ renderSegs (Arg.value s) seg (seg' :: l) := by
      simp [renderSegs]
    rw [if_neg (by simpa using hsemi)]
    simp only [renderSegs, List.length_append, List.length_cons] at hle
    have hsegs : segments (renderSegs (Arg.value s) seg (seg' :: l)).length (renderSegs (Arg.value s) seg (seg' :: l)) =
        (seg :: seg' :: l).map fun seg => seg.render (Arg.value s) := by
      obtain ⟨fuel, hfuel⟩ : ∃ m, (renderSegs (Arg.value s) seg (seg' :: l)).length = m + 1 :=
        ⟨_, (Nat.succ_pred_eq_of_pos (List.length_pos_of_mem hsemi)).symm⟩
      rw [hfuel]
      simp only [renderSegs, List.length_append, List.length_cons] at hfuel
      have hfirst : segments (fuel + 1) (seg.render (Arg.value s) ++ ' ' :: ';' :: ' ' :: renderSegs (Arg.value s) seg' l) =
          seg.render (Arg.value s) :: segments fuel (' ' :: renderSegs (Arg.value s) seg' l) :=
        (segments_step (b := []) htok hends (List.forall_mem_nil _) (by simp only [List.nil_append]; omega)).2
      have hrest : segments fuel (' ' :: renderSegs (Arg.value s) seg' l) =
          (seg' :: l).map fun seg => seg.render (Arg.value s) :=
        segments_render (b := [' ']) htok hends (List.all_eq_true.1 (by decide))
          (by simp only [List.length_append, List.length_singleton]; omega)
          (by simp only [List.length_append, List.length_singleton]; omega)
      rw [renderSegs, hfirst, hrest]
      rfl
    rw [hsegs]
    change _ = runSegs (Segment.run W s) (fun _ => false) 0 (seg :: seg' :: l)
    refine runSegs_congr fun d hd => ⟨execSimple_segment (hok d hd), ?_⟩
    obtain ⟨q, c, heq, -⟩ : Ends (d.render (Arg.value s)) := renderFrom_ends hends _ _
    simp [heq]

/-! ## Lengths -/

theorem Command.length_le {f : Arg → Text} {c : Command} {a : Arg} (ha : a ∈ c.args) : (f a).length ≤ (c.render f).length := by
  obtain ⟨l, l', heq⟩ := List.append_of_mem ha
  simp only [Command.render, heq, List.flatMap_append, List.flatMap_cons, List.length_append, List.length_cons]
  omega

theorem renderFrom_length_le {f : Arg → Text} {d : Command} : ∀ {l : List (Link × Command)} {c : Command},
    d ∈ c :: l.map Prod.snd → (d.render f).length ≤ (renderFrom f c l).length
  | [], c, h => by
    rw [List.mem_singleton.1 h]
    exact Nat.le_refl _
  | (k, e) :: l, c, h => by
    rw [renderFrom, List.length_append]
    rcases List.mem_cons.1 h with rfl | h
    · omega
    · have ih : (d.render f).length ≤ (renderFrom f e l).length := renderFrom_length_le h
      simp only [List.length_cons, List.length_append]
      omega

theorem renderSegs_length_le {f : Arg → Text} {seg' : Segment} : ∀ {l : List Segment} {seg : Segment},
    seg' ∈ seg :: l → (seg'.render f).length ≤ (renderSegs f seg l).length
  | [], seg, h => by
    rw [List.mem_singleton.1 h]
    exact Nat.le_refl _
  | d :: l, seg, h => by
    rw [renderSegs, List.length_append]
    rcases List.mem_cons.1 h with rfl | h
    · omega
    · have ih := renderSegs_length_le (f := f) h
      simp only [List.length_cons]
      omega

theorem inert_of_word {w : Text} (h : isWord w = true) : inert w = true := by
  have hall := (isWord_cases h).2
  clear h
  induction w with
  | nil => rfl
  | cons c w ih =>
    obtain ⟨htok, hlit, -⟩ := isPlain_cases (hall c List.mem_cons_self)
    obtain ⟨⟨-, hback⟩, hdollar⟩ : ((c ≠ '\\' ∧ c ≠ '\'') ∧ c ≠ backtick) ∧ c ≠ '$' := by simpa [isLit] using hlit
    exact inert_cons.2 ⟨htok, hback, fun h => absurd h hdollar, ih fun d hd => hall d (List.mem_cons_of_mem _ hd)⟩

/-- **The segments of a line that fits are within the tables**, and the values in them expand to themselves. -/
theorem Line.Fits.ok {L : Line} (hs : '\'' ∉ s) (hne : s ≠ []) (hinert : inert s = true) (h : L.Fits s) :
    ∀ seg ∈ L.first :: L.rest, seg.Ok s := by
  intro seg hseg
  have hlen : ∀ c ∈ seg.commands, (c.render (Arg.value s)).length < maxLine := fun c hc =>
    calc (c.render (Arg.value s)).length ≤ (seg.render (Arg.value s)).length := renderFrom_length_le hc
      _ ≤ (renderSegs (Arg.value s) L.first L.rest).length := renderSegs_length_le hseg
      _ ≤ (L.text s).length := (L.unquotes hs).length_le
      _ < maxLine := h.line
  have hword : ∀ w : Text, isWord w = true → w.length < maxLine → Token w := fun w hw hlt =>
    ⟨(isWord_cases hw).1, word_isTok hw, hlt⟩
  have hname : ∀ c ∈ seg.commands, c.name.1.length < maxLine := by
    intro c hc
    have := hlen c hc
    rw [Command.render, List.length_append] at this
    omega
  have hval : ∀ c ∈ seg.commands, ∀ a ∈ c.args, inert (a.value s) = true ∧ Token (a.value s) := by
    intro c hc a ha
    have hlt := Nat.lt_of_le_of_lt (Command.length_le (f := Arg.value s) ha) (hlen c hc)
    cases a with
    | word w => exact ⟨inert_of_word w.2, hword w.1 w.2 hlt⟩
    | quoted => exact ⟨hinert, hne, inert_isTok hinert, hlt⟩
  refine ⟨h.cmds seg hseg, fun c hc => ?_, fun c hc => ?_⟩
  · exact ⟨hword _ (isName_isWord c.name.2) (hname c hc), fun a ha => (hval c hc a ha).2, h.args seg hseg c hc⟩
  · refine List.forall_mem_cons.2 ⟨⟨inert_of_word (isName_isWord c.name.2), hname c hc⟩, ?_⟩
    intro a ha
    obtain ⟨b, hb, rfl⟩ := List.mem_map.1 ha
    exact ⟨(hval c hc b hb).1, (hval c hc b hb).2.lt⟩

/-! ## Sub-shells -/

theorem readParens_append : ∀ {t : Text} {d n : Nat}, depthAfter d t = some d' → t.length ≤ n →
    readParens n d (t ++ p) = (t ++ (readParens (n - t.length) d' p).1, (readParens (n - t.length) d' p).2)
  | [], d, n, h, _ => by
    cases h
    rfl
  | c :: t, d, n, h, hn => by
    obtain ⟨n, rfl⟩ : ∃ m, n = m + 1 := ⟨n - 1, by simp only [List.length_cons] at hn; omega⟩
    by_cases hc : c = ')' ∧ d = 1
    · rw [depthAfter, if_pos hc] at h
      cases h
    rw [depthAfter_cons hc] at h
    rw [List.cons_append, readParens, if_neg hc, readParens_append h (by simpa using hn)]
    simp

/-- The text between the parentheses is read whole. -/
theorem readParens_balanced (h : Balanced t) (hn : t.length ≤ n) : (readParens n 1 (t ++ ')' :: p)).1 = t := by
  rw [readParens_append (h 1 (Nat.le_refl 1)) hn]
  cases n - t.length <;> simp [readParens]

theorem capture_first : (capture W t).first σ = some (.capture t) := Act.first_bind rfl _

/-- The first event of the loop is that of the first character that is expanded. -/
theorem expandLoop_first {e : Event} (h : ∀ c ∈ q, isLit c = true) (hstep : (expandStep W c t).first σ = some e) :
    ∀ {fuel room}, q.length < fuel → q.length < room → (expandLoop W fuel room (q ++ c :: t)).first σ = some e := by
  induction q with
  | nil =>
    intro fuel room hf hr
    obtain ⟨fuel, rfl⟩ : ∃ m, fuel = m + 1 := ⟨fuel - 1, by omega⟩
    rw [List.length_nil] at hr
    rw [List.nil_append, expandLoop, if_neg (Nat.ne_of_gt hr)]
    exact Act.first_bind hstep _
  | cons b q ih =>
    intro fuel room hf hr
    simp only [List.length_cons] at hf hr
    obtain ⟨fuel, rfl⟩ : ∃ m, fuel = m + 1 := ⟨fuel - 1, by omega⟩
    rw [List.cons_append, expandLoop, if_neg (by omega), expandStep_lit (h b List.mem_cons_self), pure_bind]
    exact Act.first_bind (ih (fun d hd => h d (List.mem_cons_of_mem _ hd)) (by omega)
      (by simp only [List.length_singleton]; omega)) _

/-- `trim_ws` takes nothing in front of a character that is no white space. -/
theorem trimWs_append_cons (hp : Begins p) (hc : isSpace c = false) : ∃ t', trimWs (p ++ c :: t) = p ++ c :: t' := by
  obtain ⟨b, q, rfl, hb, -⟩ := hp.cons
  simp only [isSpace, Bool.or_eq_false_iff] at hc
  have hdrop : ∀ x : Text, ∃ y, (x ++ c :: (b :: q).reverse).dropWhile (fun c => isBlank c || c = '\r' || c = '\n') =
      y ++ c :: (b :: q).reverse := by
    intro x
    induction x with
    | nil => exact ⟨[], List.dropWhile_cons_of_neg (by simp [isBlank, hc])⟩
    | cons d x ih =>
      rw [List.cons_append, List.dropWhile_cons]
      split
      · exact ih
      · exact ⟨d :: x, rfl⟩
  obtain ⟨y, hy⟩ := hdrop t.reverse
  refine ⟨y.reverse, ?_⟩
  rw [trimWs, List.cons_append, List.dropWhile_cons_of_neg (by simp [hb]), ← List.cons_append, List.reverse_append,
    List.reverse_cons, List.append_assoc, List.singleton_append, hy]
  simp

/-- **The first event of a command** whose arguments begin with characters that are copied is that of the first one that is
not; `trim_ws` leaves the text up to `z` to it. -/
theorem shRun_first {e : Event} {name : Name} {m r : Text} {z : Char} (h : ∀ c ∈ q, isLit c = true) (hz : isSpace z = false)
    (hlen : (name.1 ++ ' ' :: (q ++ c :: (m ++ z :: r))).length < maxLine)
    (hstep : ∀ r', (expandStep W c (m ++ z :: r')).first σ = some e) :
    (shRun W (name.1 ++ ' ' :: (q ++ c :: (m ++ z :: r)))).first σ = some e := by
  have hbegins : ∀ x : Text, Begins (name.1 ++ ' ' :: x) := fun x => ⟨name, _, rfl, Or.inr ⟨x, rfl⟩⟩
  have htext : ∀ r', name.1 ++ ' ' :: (q ++ c :: (m ++ z :: r')) = name.1 ++ ' ' :: (q ++ c :: m) ++ z :: r' := by simp
  obtain ⟨r', hr'⟩ := trimWs_append_cons (t := r) (hbegins (q ++ c :: m)) hz
  rw [← htext, ← htext] at hr'
  rw [shRun_begins hlen hr' (hbegins _)]
  refine Act.first_bind ?_ _
  have hlit : ∀ d ∈ name.1 ++ ' ' :: q, isLit d = true := by
    have hname : ∀ d ∈ name.1, isLit d = true := fun d hd =>
      (isPlain_cases ((isWord_cases (isName_isWord name.2)).2 d hd)).2.1
    intro d hd
    rcases List.mem_append.1 hd with hd | hd
    · exact hname d hd
    rcases List.mem_cons.1 hd with rfl | hd
    · rfl
    · exact h d hd
  have hsplit : name.1 ++ ' ' :: (q ++ c :: (m ++ z :: r')) = (name.1 ++ ' ' :: q) ++ c :: (m ++ z :: r') := by simp
  simp only [List.length_append, List.length_cons] at hlen
  rw [hsplit]
  refine expandLoop_first hlit (hstep r') ?_ ?_
  · simp only [List.length_append, List.length_cons]
    omega
  · simp only [List.length_append, List.length_cons, maxLine] at hlen ⊢
    omega

/-- **A string that survives stands for itself** in single quotes. -/
theorem Verbatim.of_survives (hs : '\'' ∉ s) (h : Survives s) : Verbatim s := by
  refine ⟨?_, ?_, ?_⟩
  · intro ω W L hfits
    exact shRun_line hs h.ne (inert_isTok h.inert) (hfits.ok hs h.ne h.inert) hfits.line
  · intro ω W σ name q t r hscript hq hlen
    have hbal := hscript.balanced (Balanced.of_one h.balanced)
    have hle : t.length ≤ maxLine - 1 := by
      simp only [substText, List.length_append, List.length_cons] at hlen
      omega
    refine shRun_first (m := '(' :: t) hq rfl hlen fun r' => ?_
    rw [expandStep_dollar, List.cons_append, expandDollar, if_pos rfl]
    change ((do return (← capture W (readParens (maxLine - 1) 1 (t ++ ')' :: r')).1, _)) : Run ω (Text × Text)).first σ = _
    rw [readParens_balanced hbal hle]
    exact Act.first_bind capture_first _
  · intro ω W σ name q r L hfits hq hlen
    have hback := L.backtick_not_mem (inert_backtick h.inert)
    have hle : (L.text s).length ≤ maxLine - 1 := Nat.le_sub_one_of_lt hfits.line
    refine shRun_first hq (by decide) hlen fun r' => ?_
    rw [expandStep, if_neg (fun h => absurd h.1 (by decide)), if_neg (by decide), if_pos rfl, readUntil_append _ hback hle]
    exact Act.first_bind capture_first _

end Sh
end Pico
