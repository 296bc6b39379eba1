import Mathlib.Data.List.TakeDrop
import Mathlib.Data.List.TakeWhile
import Picomimi.ShText
/-!
# ShAndOr — pipelines joined by `&&`, `||` and `;`

An `AndOr` is the syntax of such a line: pipelines of commands, every command a list of items the tokeniser reads in one turn.
`AndOr.run` is its meaning, an operand being skipped when the status decides and the status handed on; `exec_simple` stores
an operator on the command before it, and after the first operand it skips it skips all the others too.
-/
namespace Pico
namespace Sh

open Lib

variable {ω ε : Type} {W : World ω} {σ : State ω} {nc : Nat} {c : Char} {t p : Text} {cur : Cmd}

/-! ## Lines -/

/-- What the tokeniser reads in one turn without ending the command, up to a blank or the end of the line: a word or a
redirection, and what it does to the command. -/
structure Item where
  text : Text
  apply : Cmd → Cmd
  starts : ∃ c t, text = c :: t ∧ isBlank c = false
  turn : ∀ room cur c t rest, text = c :: t → (rest = [] ∨ ∃ q, rest = ' ' :: q) →
    tokenStep room cur c (t ++ rest) = some (.same (apply cur) rest)
  connector : ∀ cur, (apply cur).connector = cur.connector

/-- A command of the line: its words make it one. -/
structure Stage where
  items : List Item
  named : (items.foldl (fun cur it => it.apply cur) ({} : Cmd)).argv ≠ []

structure Pipeline where
  first : Stage
  rest : List Stage

/-- **The lines**: pipelines with `&&`, `||` or `;` between them. -/
inductive AndOr
  | last (p : Pipeline)
  | link (p : Pipeline) (k : { k : Connector // k ≠ .pipe }) (rest : AndOr)

def itemsText : List Item → Text
  | [] => []
  | [it] => it.text
  | it :: l => it.text ++ ' ' :: itemsText l

def stagesText : Stage → List Stage → Text
  | s, [] => itemsText s.items
  | s, s' :: l => itemsText s.items ++ ' ' :: '|' :: ' ' :: stagesText s' l

def AndOr.text : AndOr → Text
  | .last p => stagesText p.first p.rest
  | .link p k rest => stagesText p.first p.rest ++ ' ' :: (k.1.text ++ ' ' :: rest.text)

/-- The command, with the connector that follows it. -/
def Stage.cmd (s : Stage) (k : Connector) : Cmd :=
  { s.items.foldl (fun cur it => it.apply cur) ({} : Cmd) with connector := k }

def stagesCmds (k : Connector) : Stage → List Stage → List Cmd
  | s, [] => [s.cmd k]
  | s, s' :: l => s.cmd .pipe :: stagesCmds k s' l

def Pipeline.toCmds (p : Pipeline) (k : Connector) : List Cmd := stagesCmds k p.first p.rest

def AndOr.toCmds : AndOr → List Cmd
  | .last p => p.toCmds .finish
  | .link p k rest => p.toCmds k.1 ++ rest.toCmds

/-! ## What a line means -/

/-- Run a pipeline and keep its status in `$?`. -/
def runPipeline (exec : List Cmd → Act ε (State ω) Int) (cmds : List Cmd) : Act ε (State ω) Int := do
  let result ← exec cmds
  Act.modify fun σ => { σ with exit := result }
  return result

/-- **Short-circuit evaluation**, with the status so far and the operator in front: an operand is skipped behind a `||` when
the status is 0 and behind a `&&` when it is not, and the status stays. -/
def AndOr.after (exec : List Cmd → Act ε (State ω) Int) : Int → Connector → AndOr → Act ε (State ω) Int
  | r, k, .last p => if skipsRest k r then pure r else runPipeline exec (p.toCmds .finish)
  | r, k, .link p k' rest =>
    if skipsRest k r then rest.after exec r k'.1
    else do
      let r ← runPipeline exec (p.toCmds k'.1)
      rest.after exec r k'.1

def AndOr.run (exec : List Cmd → Act ε (State ω) Int) (L : AndOr) : Act ε (State ω) Int := L.after exec 0 .finish

/-- The loop of `exec_simple`, with `exec` to run a pipeline. -/
def chainOf (exec : List Cmd → Act ε (State ω) Int) : Nat → Int → List Cmd → Act ε (State ω) Int
  | 0, result, _ => pure result
  | _ + 1, result, [] => pure result
  | fuel + 1, _, c :: l =>
    match splitPipe c l with
    | (stages, last, rest) => do
      let result ← exec (stages ++ [last])
      Act.modify fun σ => { σ with exit := result }
      if skipsRest last.connector result then return result
      else chainOf exec fuel result rest

/-- `exec_simple`, with `exec` to run a pipeline. -/
def simpleOf (exec : List Cmd → Act ε (State ω) Int) (line : Text) : Act ε (State ω) Int :=
  match line.dropWhile isBlank with
  | [] => Act.reads State.exit
  | c :: t =>
    if c = '#' then Act.reads State.exit
    else match tokenize (c :: t) with
      | none => Act.never
      | some [] => Act.reads State.exit
      | some cmds => chainOf exec cmds.length 0 cmds

theorem chainOf_execPipeline (expand : Text → Run ω Text) : ∀ (fuel : Nat) (result : Int) (l : List Cmd),
    chainOf (execPipeline W expand) fuel result l = execChain W expand fuel result l
  | 0, _, _ => rfl
  | _ + 1, _, [] => rfl
  | fuel + 1, _, c :: l => by
    unfold chainOf execChain
    simp only [chainOf_execPipeline expand fuel]

/-- **`exec_simple` is this with `exec_pipeline`.** -/
theorem simpleOf_execPipeline (line : Text) : simpleOf (execPipeline W (shellExpand W)) line = execSimple W line := by
  unfold simpleOf execSimple
  rcases line.dropWhile isBlank with _ | ⟨c, t⟩
  · rfl
  dsimp only
  by_cases hc : c = '#'
  · exact (if_pos hc).trans (if_pos hc).symm
  · rw [if_neg hc, if_neg hc]
    rcases tokenize (c :: t) with _ | _ | ⟨cmd, cmds⟩
    · rfl
    · rfl
    · exact chainOf_execPipeline (shellExpand W) _ 0 (cmd :: cmds)

/-- `exec_pipeline` with the pipeline itself as its event. -/
def logged (W : World ω) (cmds : List Cmd) : Act (List Cmd) (State ω) Int := fun σ =>
  ([cmds], (execPipeline W (shellExpand W) cmds σ).2)

/-- **`exec_simple` does what the line means**: it runs the same pipelines in the same order, with the same status in the end,
and so leaves the same events. -/
structure AndOrLaw (W : World ω) (σ : State ω) (L : AndOr) : Prop where
  pipelines : simpleOf (logged W) L.text σ = L.run (logged W) σ
  events : execSimple W L.text σ = L.run (execPipeline W (shellExpand W)) σ

/-- All the operators of the line are `k`. -/
def AndOr.Uniform (k : Connector) : AndOr → Prop
  | .last _ => True
  | .link _ k' rest => k'.1 = k ∧ rest.Uniform k

/-- **Where an operand is skipped first, all the operators behind it are the same as the one in front of it.** -/
def AndOr.ShortsLast (W : World ω) : State ω → AndOr → Prop
  | _, .last _ => True
  | σ, .link p k rest =>
    match (execPipeline W (shellExpand W) (p.toCmds k.1) σ).2 with
    | none => True
    | some (r, σ) => if skipsRest k.1 r then rest.Uniform k.1 else rest.ShortsLast W { σ with exit := r }

/-! ## Items -/

theorem tokenStep_item {room : Bool} {tok rest : Text} (hc : endsWord c = false) (hgt : t.head? ≠ some '>')
    (hread : readWord .plain (maxLine - 1) (c :: t) = (tok, rest)) (hlen : rest.length < t.length + 1) :
    tokenStep room cur c t = some (.same (addArg cur tok) rest) := by
  rw [tokenStep_word hc hgt, hread]
  simp only
  rw [if_neg (Nat.ne_of_lt hlen)]

theorem addArg_connector (cur : Cmd) (tok : Text) : (addArg cur tok).connector = cur.connector := by
  unfold addArg
  split <;> rfl

theorem isBlank_of_endsWord (h : endsWord c = false) : isBlank c = false := by
  simp only [endsWord, isSpace, Bool.or_eq_false_iff] at h
  simp [isBlank, h]

/-- A blank, or nothing, behind an item ends the word. -/
theorem ends_of_blank {rest : Text} (h : rest = [] ∨ ∃ q, rest = ' ' :: q) : ∀ d q, rest = d :: q → endsWord d = true := by
  rintro d q rfl
  rcases h with h | ⟨q', h⟩
  · cases h
  · cases h
    rfl

/-- A word without anything special in it. -/
def Item.word (w : Text) (hne : w ≠ []) (htok : ∀ c ∈ w, isTok c = true) (hlen : w.length < maxLine) : Item where
  text := w
  apply cur := addArg cur w
  starts := by
    obtain ⟨c, t, rfl⟩ := List.exists_cons_of_ne_nil hne
    exact ⟨c, t, rfl, isBlank_of_endsWord (isTok_cases (htok c List.mem_cons_self)).1⟩
  turn room cur c t rest heq hrest := by
    subst heq
    have hread := readWord_append htok (ends_of_blank hrest) (Nat.le_sub_one_of_lt hlen)
    refine tokenStep_item (isTok_cases (htok c List.mem_cons_self)).1 ?_ hread ?_
    · cases t with
      | nil => rcases hrest with rfl | ⟨q, rfl⟩ <;> simp
      | cons d t =>
        intro heq
        cases Option.some.inj heq
        exact absurd (htok '>' (List.mem_cons_of_mem _ List.mem_cons_self)) (by decide)
    · rw [List.length_append]
      omega
  connector cur := addArg_connector cur w

theorem readWord_single : ∀ {q : Text} {n : Nat} {rest : Text}, '\'' ∉ q → q.length ≤ n →
    readWord .single (n + 1) (q ++ '\'' :: rest) = (q ++ (readWord .plain (n + 1 - q.length) rest).1,
      (readWord .plain (n + 1 - q.length) rest).2)
  | [], n, rest, _, _ => by
    cases rest <;> simp [readWord]
  | c :: q, n, rest, hq, hn => by
    obtain ⟨hc, hq'⟩ := not_or.1 (mt List.mem_cons.2 hq)
    obtain ⟨n, rfl⟩ : ∃ m, n = m + 1 := ⟨n - 1, by rw [List.length_cons] at hn; omega⟩
    rw [List.length_cons, Nat.add_le_add_iff_right] at hn
    rw [List.cons_append, readWord, if_neg (fun heq => hc heq.symm), readWord_single hq' hn, List.length_cons,
      Nat.add_sub_add_right]
    rfl

theorem tokenStep_quote {room : Bool} : tokenStep room cur '\'' t =
    match readWord .plain (maxLine - 1) ('\'' :: t) with
    | (tok, rest) => if rest.length = t.length + 1 then none else some (.same (addArg cur tok) rest) := by
  simp [tokenStep]

/-- A string in single quotes. -/
def Item.quoted (q : Text) (hq : '\'' ∉ q) (hlen : q.length + 1 < maxLine) : Item where
  text := '\'' :: (q ++ ['\''])
  apply cur := addArg cur q
  starts := ⟨_, _, rfl, rfl⟩
  turn room cur c t rest heq hrest := by
    obtain ⟨rfl, rfl⟩ := List.cons.inj heq
    have hmax : maxLine - 1 = 4094 + 1 := rfl
    have hread : readWord .plain (maxLine - 1) ('\'' :: (q ++ ['\''] ++ rest)) = (q, rest) := by
      rw [hmax, readWord_plain, if_pos rfl, List.append_assoc, List.singleton_append,
        readWord_single hq (by unfold maxLine at hlen; omega), readWord_ends (ends_of_blank hrest), List.append_nil]
    rw [tokenStep_quote, hread]
    simp only
    rw [if_neg (by simp only [List.length_append]; omega)]
  connector cur := addArg_connector cur q

inductive Redirect | input | output | append | error

def Redirect.text : Redirect → Text
  | .input => ['<']
  | .output => ['>']
  | .append => ['>', '>']
  | .error => ['2', '>']

def Redirect.set (f : Text) (cur : Cmd) : Redirect → Cmd
  | .input => { cur with rin := some f }
  | .output => { cur with rout := some f }
  | .append => { cur with rapp := some f }
  | .error => { cur with rerr := some f }

theorem readFile_append {f rest : Text} (htok : ∀ c ∈ f, isTok c = true) (hne : f ≠ [])
    (hrest : rest = [] ∨ ∃ q, rest = ' ' :: q) : readFile (f ++ rest) = (f, rest) := by
  have hfile : ∀ c ∈ f, (!isSpace c && c ≠ '|' && c ≠ '&' && c ≠ ';') = true := fun c hc => by
    have := (isTok_cases (htok c hc)).1
    simp only [endsWord, Bool.or_eq_false_iff, decide_eq_false_iff_not] at this
    simp [this]
  obtain ⟨c, t, rfl⟩ := List.exists_cons_of_ne_nil hne
  have hc : c ≠ ' ' := by
    rintro rfl
    exact absurd (htok ' ' List.mem_cons_self) (by decide)
  unfold readFile
  rw [List.cons_append, List.dropWhile_cons_of_neg (by simpa using hc), ← List.cons_append, List.span_eq_takeWhile_dropWhile,
    List.takeWhile_append_of_pos hfile, List.dropWhile_append_of_pos hfile]
  rcases hrest with rfl | ⟨q, rfl⟩
  · simp
  · have hspace : isSpace ' ' = true := rfl
    rw [List.takeWhile_cons_of_neg (by simp [hspace]), List.dropWhile_cons_of_neg (by simp [hspace]), List.append_nil]

/-- A redirection to or from a file. -/
def Item.redirect (k : Redirect) (f : Text) (hne : f ≠ []) (htok : ∀ c ∈ f, isTok c = true) : Item where
  text := k.text ++ f
  apply cur := k.set f cur
  starts := by
    cases k with
    | input => exact ⟨_, _, rfl, by decide⟩
    | output => exact ⟨_, _, rfl, by decide⟩
    | append => exact ⟨_, _, rfl, by decide⟩
    | error => exact ⟨_, _, rfl, by decide⟩
  turn room cur c t rest heq hrest := by
    have hread := readFile_append htok hne hrest
    obtain ⟨d, f, rfl⟩ := List.exists_cons_of_ne_nil hne
    have hd := htok d List.mem_cons_self
    have hgt : d ≠ '>' := by
      rintro rfl
      exact absurd hd (by decide)
    have hamp : d ≠ '&' := by
      rintro rfl
      exact absurd hd (by decide)
    rw [List.cons_append] at hread
    cases k with
    | input =>
      obtain ⟨rfl, rfl⟩ := List.cons.inj heq
      simp [tokenStep, hread, Redirect.set]
    | output =>
      obtain ⟨rfl, rfl⟩ := List.cons.inj heq
      simp [tokenStep, hread, hgt, Redirect.set]
    | append =>
      obtain ⟨rfl, rfl⟩ := List.cons.inj heq
      simp [tokenStep, hread, Redirect.set]
    | error =>
      obtain ⟨rfl, rfl⟩ := List.cons.inj heq
      simp [tokenStep, hread, hamp, Redirect.set]
  connector cur := by cases k <;> rfl

/-! ## What the tokeniser makes of a line -/

theorem Tokens.item {it : Item} {rest : Text} {l : List Cmd} (hrest : rest = [] ∨ ∃ q, rest = ' ' :: q)
    (h : Tokens nc (it.apply cur) rest l) : Tokens nc cur (it.text ++ rest) l := by
  intro fuel hf
  obtain ⟨c, t, heq, hb⟩ := it.starts
  rw [heq] at hf ⊢
  simp only [List.cons_append, List.length_cons, List.length_append] at hf
  obtain ⟨fuel, rfl⟩ : ∃ m, fuel = m + 1 := ⟨fuel - 1, by omega⟩
  rw [List.cons_append, tokenizeFrom, List.dropWhile_cons_of_neg (by simp [hb])]
  simp only [it.turn (decide (nc + 1 < maxCmds)) cur c t rest heq hrest]
  exact h fuel (by omega)

theorem Tokens.items : ∀ {l : List Item} {cur : Cmd} {rest : Text} {cmds : List Cmd}, (rest = [] ∨ ∃ q, rest = ' ' :: q) →
    Tokens nc (l.foldl (fun cur it => it.apply cur) cur) rest cmds → Tokens nc cur (itemsText l ++ rest) cmds
  | [], _, _, _, _, h => h
  | [it], _, _, _, hrest, h => Tokens.item hrest h
  | it :: it' :: l, cur, rest, cmds, hrest, h => by
    rw [itemsText, List.append_assoc, List.cons_append]
    · exact Tokens.item (.inr ⟨_, rfl⟩) (Tokens.blank rfl (Tokens.items hrest h))
    · exact List.cons_ne_nil _ _

/-- An operator goes into the command it follows, if that has words. -/
theorem Tokens.operator {k : Connector} {q : Text} {l : List Cmd} (hnc : nc + 1 < maxCmds) (hcur : cur.argv ≠ [])
    (h : Tokens (nc + 1) {} (' ' :: q) l) : Tokens nc cur (k.text ++ ' ' :: q) ({ cur with connector := k } :: l) := by
  cases k with
  | pipe => exact Tokens.connector (by decide) hnc ⟨q, rfl⟩ h
  | or => exact Tokens.connector (by decide) hnc ⟨q, rfl⟩ h
  | and => exact Tokens.connector (by decide) hnc ⟨q, rfl⟩ h
  | finish =>
    intro fuel hf
    simp only [Connector.text, List.singleton_append, List.length_cons] at hf
    obtain ⟨fuel, rfl⟩ : ∃ m, fuel = m + 1 := ⟨fuel - 1, by omega⟩
    rw [Connector.text, List.singleton_append, tokenizeFrom, List.dropWhile_cons_of_neg (by decide)]
    have hstep : tokenStep (decide (nc + 1 < maxCmds)) cur ';' (' ' :: q) =
        some (.next { cur with connector := .finish } (' ' :: q)) := by
      simp [tokenStep, connect, hnc, hcur]
    simp only [hstep]
    rw [h fuel (by simp only [List.length_cons]; omega)]
    rfl

theorem foldl_connector : ∀ (l : List Item) (cur : Cmd),
    (l.foldl (fun cur it => it.apply cur) cur).connector = cur.connector
  | [], _ => rfl
  | it :: l, cur => by rw [List.foldl_cons, foldl_connector l, it.connector]

theorem Stage.cmd_finish (s : Stage) : s.cmd .finish = s.items.foldl (fun cur it => it.apply cur) ({} : Cmd) := by
  have h : Connector.finish = (s.items.foldl (fun cur it => it.apply cur) ({} : Cmd)).connector :=
    (foldl_connector s.items {}).symm
  unfold Stage.cmd
  generalize s.items.foldl (fun cur it => it.apply cur) ({} : Cmd) = cur at h ⊢
  cases cur
  cases h
  rfl

def AndOr.stages : AndOr → Nat
  | .last p => p.rest.length + 1
  | .link p _ rest => p.rest.length + 1 + rest.stages

theorem AndOr.stages_pos (L : AndOr) : 0 < L.stages := by
  cases L <;> unfold AndOr.stages <;> omega

theorem Tokens.pipeline {k : Connector} {q : Text} {l : List Cmd} : ∀ {rest : List Stage} {s : Stage} {nc : Nat},
    nc + rest.length + 1 < maxCmds → Tokens (nc + rest.length + 1) {} (' ' :: q) l →
      Tokens nc {} (stagesText s rest ++ ' ' :: (k.text ++ ' ' :: q)) (stagesCmds k s rest ++ l)
  | [], s, nc, hnc, h => Tokens.items (.inr ⟨_, rfl⟩) (Tokens.blank rfl (Tokens.operator hnc s.named h))
  | s' :: rest, s, nc, hnc, h => by
    rw [List.length_cons] at hnc h
    have hsum : nc + (rest.length + 1) + 1 = nc + 1 + rest.length + 1 := by omega
    rw [hsum] at h hnc
    have htail := @Tokens.pipeline k q l rest s' (nc + 1) hnc h
    rw [stagesText, List.append_assoc]
    refine Tokens.items (.inr ⟨_, rfl⟩) (Tokens.blank rfl ?_)
    exact Tokens.operator (k := .pipe) (by omega) s.named (Tokens.blank rfl htail)

theorem Tokens.lastPipeline : ∀ {rest : List Stage} {s : Stage} {nc : Nat}, nc + rest.length < maxCmds →
    Tokens nc {} (stagesText s rest) (stagesCmds .finish s rest)
  | [], s, nc, _ => by
    have h : Tokens nc {} (itemsText s.items ++ []) _ := Tokens.items (.inl rfl) Tokens.nil
    rw [List.append_nil, ← s.cmd_finish] at h
    exact h
  | s' :: rest, s, nc, hnc => by
    rw [List.length_cons] at hnc
    refine Tokens.items (.inr ⟨_, rfl⟩) (Tokens.blank rfl ?_)
    exact Tokens.operator (k := .pipe) (by omega) s.named
      (Tokens.blank rfl (Tokens.lastPipeline (s := s') (by omega)))

/-- **The tokeniser makes of a line the commands it is written of**, each with the operator behind it. -/
theorem Tokens.andOr : ∀ {L : AndOr} {nc : Nat}, nc + L.stages ≤ maxCmds → Tokens nc {} L.text L.toCmds
  | .last p, nc, h => by
    unfold AndOr.stages at h
    exact Tokens.lastPipeline (by omega)
  | .link p k rest, nc, h => by
    unfold AndOr.stages at h
    have hpos := rest.stages_pos
    exact Tokens.pipeline (by omega) (Tokens.blank rfl (Tokens.andOr (by omega)))

/-! ## The loop -/

theorem splitPipe_stages {k : Connector} {l : List Cmd} (hk : k ≠ .pipe ∨ l = []) : ∀ (rest : List Stage) (s : Stage),
    ∃ c cs init last, stagesCmds k s rest = c :: cs ∧ splitPipe c (cs ++ l) = (init, last, l) ∧
      init ++ [last] = stagesCmds k s rest ∧ last.connector = k
  | [], s => by
    refine ⟨s.cmd k, [], [], s.cmd k, rfl, ?_, rfl, rfl⟩
    cases l with
    | nil => rfl
    | cons d l =>
      have hne : (s.cmd k).connector ≠ .pipe := hk.resolve_right (List.cons_ne_nil d l)
      rw [List.nil_append, splitPipe, if_neg hne]
  | s' :: rest, s => by
    obtain ⟨c, cs, init, last, heq, hsplit, happ, hlast⟩ := splitPipe_stages hk rest s'
    refine ⟨s.cmd .pipe, c :: cs, s.cmd .pipe :: init, last, by rw [stagesCmds, heq], ?_, ?_, hlast⟩
    · have hpipe : (s.cmd .pipe).connector = .pipe := rfl
      rw [List.cons_append, splitPipe, if_pos hpipe, hsplit]
    · rw [List.cons_append, happ, stagesCmds]

/-- **A turn of the loop** runs the first pipeline and goes on with the others, unless the operator behind it ends the list. -/
theorem chainOf_turn (exec : List Cmd → Act ε (State ω) Int) {k : Connector} {l : List Cmd} (hk : k ≠ .pipe ∨ l = [])
    (p : Pipeline) (fuel : Nat) (r₀ : Int) : chainOf exec (fuel + 1) r₀ (p.toCmds k ++ l) = (do
      let r ← runPipeline exec (p.toCmds k)
      if skipsRest k r then return r else chainOf exec fuel r l) := by
  obtain ⟨c, cs, init, last, heq, hsplit, happ, hlast⟩ := splitPipe_stages hk p.rest p.first
  unfold Pipeline.toCmds
  rw [← happ] at heq ⊢
  rw [heq, List.cons_append, chainOf, hsplit]
  simp only [runPipeline, hlast, ← heq, bind_assoc, pure_bind]

theorem runPipeline_none {exec : List Cmd → Act ε (State ω) Int} {l : List Cmd} {ev : List ε} {α : Type}
    (h : exec l σ = (ev, none)) (f : Int → Act ε (State ω) α) : (runPipeline exec l >>= f) σ = (ev, none) := by
  unfold runPipeline
  exact Act.bind_none (Act.bind_none h _) f

theorem runPipeline_some {exec : List Cmd → Act ε (State ω) Int} {l : List Cmd} {ev : List ε} {α : Type} {r : Int}
    {σ' : State ω} (h : exec l σ = (ev, some (r, σ'))) (f : Int → Act ε (State ω) α) :
    (runPipeline exec l >>= f) σ = (ev ++ (f r { σ' with exit := r }).1, (f r { σ' with exit := r }).2) := by
  have hrun : runPipeline exec l σ = (ev, some (r, { σ' with exit := r })) := by
    unfold runPipeline
    rw [Act.bind_some h]
    exact congrArg (·, _) (List.append_nil ev)
  exact Act.bind_some hrun f

theorem skipsRest_finish (r : Int) : skipsRest .finish r = false := rfl

/-- A status that ends a list at one operator lets another one go on. -/
theorem skipsRest_ne {k k' : Connector} {r : Int} (h : skipsRest k r = true) (hne : k' ≠ k) : skipsRest k' r = false := by
  cases k <;> cases k' <;> simp_all [skipsRest]

theorem AndOr.after_of_goes_on {exec : List Cmd → Act ε (State ω) Int} {k : Connector} {r : Int} (h : skipsRest k r = false)
    (L : AndOr) : L.after exec r k = L.run exec := by
  have h' : skipsRest .finish 0 = false := rfl
  unfold AndOr.run
  cases L <;> simp only [AndOr.after, h, h', Bool.false_eq_true, if_false]

/-- Behind a skipped operand the same operators skip all the others. -/
theorem AndOr.after_uniform {exec : List Cmd → Act ε (State ω) Int} {k : Connector} {r : Int} (h : skipsRest k r = true) :
    ∀ {L : AndOr}, L.Uniform k → L.after exec r k = pure r
  | .last p, _ => by rw [AndOr.after, if_pos h]
  | .link p k' rest, hu => by
    rw [AndOr.after, if_pos h, hu.1]
    exact AndOr.after_uniform h hu.2

/-- Running a line leaves its first pipeline in the log. -/
theorem AndOr.run_logged_ne (L : AndOr) : (L.run (logged W) σ).1 ≠ [] := by
  have hne : ∀ {α : Type} (l : List Cmd) (f : Int → Act (List Cmd) (State ω) α),
      ((runPipeline (logged W) l >>= f) σ).1 ≠ [] := by
    intro α l f
    cases hexec : (execPipeline W (shellExpand W) l σ).2 with
    | none =>
      rw [runPipeline_none (congrArg ([l], ·) hexec)]
      exact List.cons_ne_nil _ _
    | some r =>
      rw [runPipeline_some (congrArg ([l], ·) hexec)]
      exact List.cons_ne_nil _ _
  cases L with
  | last p =>
    have := hne (p.toCmds .finish) pure
    rwa [bind_pure] at this
  | link p k rest => exact hne _ _

/-- Behind a skipped operand some other operator lets an operand run. -/
theorem AndOr.after_logged {k : Connector} {r : Int} (h : skipsRest k r = true) :
    ∀ {L : AndOr}, L.after (logged W) r k σ = ([], some (r, σ)) → L.Uniform k
  | .last p, _ => trivial
  | .link p k' rest, heq => by
    rw [AndOr.after, if_pos h] at heq
    by_cases hk : k'.1 = k
    · rw [hk] at heq
      exact ⟨hk, AndOr.after_logged h heq⟩
    · rw [AndOr.after_of_goes_on (skipsRest_ne h hk)] at heq
      exact absurd (congrArg Prod.fst heq) rest.run_logged_ne

/-- **The loop runs a line as it means when operands are skipped only behind the last change of operator.** -/
theorem chainOf_of_shortsLast {exec : List Cmd → Act ε (State ω) Int}
    (hexec : ∀ l σ, (exec l σ).2 = (execPipeline W (shellExpand W) l σ).2) :
    ∀ {L : AndOr} {fuel : Nat} {r₀ : Int} {σ : State ω}, L.stages ≤ fuel → L.ShortsLast W σ →
      chainOf exec fuel r₀ L.toCmds σ = L.run exec σ
  | .last p, fuel, r₀, σ, hf, _ => by
    unfold AndOr.stages at hf
    obtain ⟨fuel, rfl⟩ : ∃ m, fuel = m + 1 := ⟨fuel - 1, by omega⟩
    have hturn := chainOf_turn exec (k := .finish) (l := []) (.inr rfl) p fuel r₀
    have hend : ∀ r, chainOf exec fuel r [] = (pure r : Act ε (State ω) Int) := fun r => by cases fuel <;> rfl
    simp only [skipsRest_finish, hend] at hturn
    rw [List.append_nil] at hturn
    unfold AndOr.toCmds
    rw [hturn]
    exact congrFun (bind_pure _) σ
  | .link p k rest, fuel, r₀, σ, hf, hs => by
    unfold AndOr.stages at hf
    obtain ⟨fuel, rfl⟩ : ∃ m, fuel = m + 1 := ⟨fuel - 1, by omega⟩
    have hturn := chainOf_turn exec (l := rest.toCmds) (.inl k.2) p fuel r₀
    have hlen : p.rest.length + 1 + rest.stages ≤ fuel + 1 := hf
    unfold AndOr.toCmds AndOr.run
    rw [hturn, AndOr.after, if_neg (by decide)]
    unfold AndOr.ShortsLast at hs
    rw [← hexec] at hs
    rcases hrun : exec (p.toCmds k.1) σ with ⟨ev, _ | ⟨r, σ'⟩⟩
    · rw [runPipeline_none hrun, runPipeline_none hrun]
    · rw [hrun] at hs
      rw [runPipeline_some hrun, runPipeline_some hrun]
      simp only at hs ⊢
      cases hk : skipsRest k.1 r with
      | true =>
        rw [hk, if_pos rfl] at hs
        rw [AndOr.after_uniform hk hs]
        rfl
      | false =>
        rw [hk, if_neg (by decide)] at hs
        rw [AndOr.after_of_goes_on hk]
        have ih : chainOf exec fuel r _ _ = _ := chainOf_of_shortsLast hexec (by omega) hs
        simp only [Bool.false_eq_true, if_false]
        rw [ih]

/-- **And only then.** -/
theorem shortsLast_of_chainOf : ∀ {L : AndOr} {fuel : Nat} {r₀ : Int} {σ : State ω}, L.stages ≤ fuel →
    chainOf (logged W) fuel r₀ L.toCmds σ = L.run (logged W) σ → L.ShortsLast W σ
  | .last p, _, _, _, _, _ => trivial
  | .link p k rest, fuel, r₀, σ, hf, h => by
    unfold AndOr.stages at hf
    obtain ⟨fuel, rfl⟩ : ∃ m, fuel = m + 1 := ⟨fuel - 1, by omega⟩
    have hturn := chainOf_turn (logged W) (l := rest.toCmds) (.inl k.2) p fuel r₀
    unfold AndOr.toCmds AndOr.run at h
    rw [hturn, AndOr.after, if_neg (by decide)] at h
    unfold AndOr.ShortsLast
    cases hexec : (execPipeline W (shellExpand W) (p.toCmds k.1) σ).2 with
    | none => trivial
    | some x =>
      obtain ⟨r, σ'⟩ := x
      have hrun : logged W (p.toCmds k.1) σ = ([p.toCmds k.1], some (r, σ')) := congrArg ([p.toCmds k.1], ·) hexec
      rw [runPipeline_some hrun, runPipeline_some hrun] at h
      obtain ⟨hev, hres⟩ := Prod.mk.inj h
      have heq := Prod.ext (List.append_cancel_left hev) hres
      simp only
      cases hk : skipsRest k.1 r with
      | true =>
        rw [if_pos rfl]
        rw [hk, if_pos rfl] at heq
        exact AndOr.after_logged hk heq.symm
      | false =>
        rw [if_neg (by decide)]
        rw [hk, if_neg (by decide), AndOr.after_of_goes_on hk] at heq
        exact shortsLast_of_chainOf (by omega) heq

/-! ## The line -/

theorem itemsText_starts : ∀ {l : List Item}, l ≠ [] → ∃ c t, itemsText l = c :: t ∧ isBlank c = false
  | [], h => absurd rfl h
  | [it], _ => it.starts
  | it :: it' :: l, _ => by
    obtain ⟨c, t, heq, hb⟩ := it.starts
    exact ⟨c, t ++ ' ' :: itemsText (it' :: l), by rw [itemsText, heq]; rfl; exact List.cons_ne_nil _ _, hb⟩

theorem Stage.starts (s : Stage) : ∃ c t, itemsText s.items = c :: t ∧ isBlank c = false :=
  itemsText_starts fun h => s.named (by rw [h]; rfl)

theorem AndOr.starts (L : AndOr) : ∃ c t, L.text = c :: t ∧ isBlank c = false := by
  have hstages : ∀ (s : Stage) (l : List Stage), ∃ c t, stagesText s l = c :: t ∧ isBlank c = false := by
    intro s l
    obtain ⟨c, t, heq, hb⟩ := s.starts
    cases l with
    | nil => exact ⟨c, t, heq, hb⟩
    | cons s' l => exact ⟨c, _, by rw [stagesText, heq]; rfl, hb⟩
  cases L with
  | last p => exact hstages _ _
  | link p k rest =>
    obtain ⟨c, t, heq, hb⟩ := hstages p.first p.rest
    exact ⟨c, _, by rw [AndOr.text, heq]; rfl, hb⟩

theorem length_stagesCmds (k : Connector) : ∀ (l : List Stage) (s : Stage), (stagesCmds k s l).length = l.length + 1
  | [], _ => rfl
  | s' :: l, s => by rw [stagesCmds, List.length_cons, length_stagesCmds k l, List.length_cons]

theorem AndOr.length_toCmds : ∀ L : AndOr, L.toCmds.length = L.stages
  | .last p => length_stagesCmds _ _ _
  | .link p k rest => by
    rw [AndOr.toCmds, List.length_append, rest.length_toCmds, AndOr.stages, Pipeline.toCmds, length_stagesCmds]

/-- `exec_simple` runs the commands of the line. -/
theorem simpleOf_text (exec : List Cmd → Act ε (State ω) Int) {L : AndOr} (hfit : L.stages ≤ maxCmds)
    (hc : L.text.head? ≠ some '#') : simpleOf exec L.text = chainOf exec L.stages 0 L.toCmds := by
  obtain ⟨c, t, heq, hb⟩ := L.starts
  have htok := @Tokens.andOr L 0 (by omega) L.text.length (Nat.le_refl _)
  have hcmds : tokenize L.text = some L.toCmds := by
    unfold tokenize
    rw [htok, Option.map_some]
    congr 1
    cases L with
    | last p =>
      obtain ⟨s, l⟩ := p
      cases l with
      | nil => exact if_neg s.named
      | cons s' l => cases l <;> rfl
    | link p k rest =>
      have hlen := (AndOr.link p k rest).length_toCmds
      have hpos := rest.stages_pos
      unfold AndOr.stages at hlen
      rcases hl : (AndOr.link p k rest).toCmds with _ | ⟨d, _ | ⟨d', l⟩⟩
      · rfl
      · rw [hl, List.length_singleton] at hlen
        omega
      · rfl
  have hc' : c ≠ '#' := by
    rintro rfl
    rw [heq] at hc
    exact hc rfl
  unfold simpleOf
  rw [heq] at hcmds ⊢
  rw [List.dropWhile_cons_of_neg (by simp [hb])]
  simp only
  rw [if_neg hc', hcmds, ← L.length_toCmds]
  cases hl : L.toCmds with
  | nil =>
    have hlen := L.length_toCmds
    rw [hl] at hlen
    exact absurd hlen (Nat.ne_of_lt L.stages_pos)
  | cons d l => rfl

/-- **`exec_simple` runs a line of pipelines as it means exactly when all the operators behind the first skipped operand are
the one in front of it**: the first operand it skips ends the line for it. -/
theorem andOrLaw_iff (W : World ω) (σ : State ω) (L : AndOr) (hfit : L.stages ≤ maxCmds) (hc : L.text.head? ≠ some '#') :
    AndOrLaw W σ L ↔ L.ShortsLast W σ := by
  constructor
  · rintro ⟨hlog, -⟩
    rw [simpleOf_text _ hfit hc] at hlog
    exact shortsLast_of_chainOf (Nat.le_refl _) hlog
  · intro h
    constructor
    · rw [simpleOf_text _ hfit hc]
      exact @chainOf_of_shortsLast _ _ W (logged W) (fun _ _ => rfl) _ _ _ _ (Nat.le_refl _) h
    · rw [← simpleOf_execPipeline, simpleOf_text _ hfit hc]
      exact chainOf_of_shortsLast (fun _ _ => rfl) (Nat.le_refl _) h

/-- A world in which `false` fails and everything else succeeds. -/
def tests : World Unit where
  capture _ _ := ((), none)
  builtin _ argv σ := some (if argv = [['f', 'a', 'l', 's', 'e']] then 1 else 0, σ)
  forks _ _ := true
  sees _ _ := ()
  opens _ _ := true
  wait _ _ := ((), 0)
  flow _ := Act.never

/-- A shell at its start. -/
def fresh : State Unit :=
  { env := fun _ => none, exit := 0, argv0 := ['s'], pos := [], pid := 1, stop := false, outside := () }

def callFalse : Pipeline :=
  ⟨⟨[.word ['f', 'a', 'l', 's', 'e'] (by decide) (List.all_eq_true.1 rfl) (by decide)], by decide⟩, []⟩

def callTrue : Pipeline := ⟨⟨[.word ['t', 'r', 'u', 'e'] (by decide) (List.all_eq_true.1 rfl) (by decide)], by decide⟩, []⟩

theorem callFalse_fails (k : Connector) :
    (execPipeline tests (shellExpand tests) (callFalse.toCmds k) fresh).2 = some (1, fresh) := rfl

/-- `false && true && true` runs `false` alone, and so it should. -/
theorem andOrLaw_and : AndOrLaw tests fresh (.link callFalse ⟨.and, by decide⟩ (.link callTrue ⟨.and, by decide⟩
    (.last callTrue))) := by
  refine (andOrLaw_iff tests fresh _ (by decide) (by decide)).2 ?_
  unfold AndOr.ShortsLast
  rw [callFalse_fails]
  exact ⟨rfl, trivial⟩

/-- `false && true || true` should go on behind the `||`. -/
theorem not_andOrLaw : ¬AndOrLaw tests fresh (.link callFalse ⟨.and, by decide⟩ (.link callTrue ⟨.or, by decide⟩
    (.last callTrue))) := by
  rintro ⟨hlog, -⟩
  rw [simpleOf_text _ (by decide) (by decide)] at hlog
  have h := shortsLast_of_chainOf (Nat.le_refl _) hlog
  unfold AndOr.ShortsLast at h
  rw [callFalse_fails] at h
  exact absurd h.1 (by decide)

end Sh
end Pico
