import Picomimi.Lib.Act
/-!
# Sh — the shell: expansion, tokeniser, lists and pipelines

A text is a list of characters without NUL.  What the shell calls on (the programs it runs, its builtins, the file system)
is a `World`, and what of it a run can change is the `outside` of a `State`.  A run leaves an event for each command text
handed to a sub-shell and for each argument vector a builtin or a program is started with.
-/
namespace Pico
namespace Sh

open Lib

abbrev Text := List Char

structure State (ω : Type) where
  env : Text → Option Text
  /-- `$?` -/
  exit : Int
  argv0 : Text
  pos : List Text
  pid : Int
  /-- `g_break || g_continue || g_return` -/
  stop : Bool
  outside : ω

inductive Connector | finish | pipe | or | and
  deriving DecidableEq, Repr

structure Cmd where
  argv : List Text := []
  rin : Option Text := none
  rout : Option Text := none
  rapp : Option Text := none
  rerr : Option Text := none
  err2out : Bool := false
  background : Bool := false
  connector : Connector := .finish
  deriving DecidableEq, Repr

inductive Event
  /-- `/bin/sh -c text` is run for its output. -/
  | capture (text : Text)
  /-- A builtin or a program is started. -/
  | invoke (argv : List Text)
  deriving DecidableEq, Repr

/-- An action of the shell. -/
abbrev Run (ω α : Type) : Type := Act Event (State ω) α

/-- **What the shell calls on.** -/
structure World (ω : Type) where
  /-- What a sub-shell prints and its wait status; `none` when it cannot be started or read. -/
  capture : State ω → Text → ω × Option (Text × Nat)
  /-- `run_builtin` in the shell itself; `none` when it exits. -/
  builtin : Cmd → List Text → State ω → Option (Int × State ω)
  /-- The pipe and the fork of a stage succeed. -/
  forks : ω → Nat → Bool
  /-- What the child of a stage sees of the outside. -/
  sees : ω → Nat → ω
  /-- A file can be opened for a redirection. -/
  opens : ω → Text → Bool
  /-- The children have ended: the wait status of the last. -/
  wait : ω → List (Cmd × List Text) → ω × Nat
  /-- A line that begins with `for`, `while` or `if`. -/
  flow : Text → Run ω Int

/-! ## Characters and limits -/

def maxLine : Nat := 4096
def maxArgs : Nat := 128
def maxCmds : Nat := 64

def backtick : Char := Char.ofNat 96

def isSpace (c : Char) : Bool :=
  c = ' ' || c = '\t' || c = '\n' || c = '\r' || c = '\x0c' || c = '\x0b'

def isBlank (c : Char) : Bool := c = ' ' || c = '\t'

def isDigit (c : Char) : Bool := '0' ≤ c && c ≤ '9'

def isNameStart (c : Char) : Bool := c = '_' || 'a' ≤ c && c ≤ 'z' || 'A' ≤ c && c ≤ 'Z'

def isNameChar (c : Char) : Bool := isNameStart c || isDigit c

/-- The characters a word ends at. -/
def endsWord (c : Char) : Bool := isSpace c || c = '|' || c = '&' || c = '<' || c = '>' || c = ';'

/-! ## `expand_vars` -/

/-- Up to `stop` or `n` characters; `stop` itself is skipped. -/
def readUntil (stop : Char) : Nat → Text → Text × Text
  | _, [] => ([], [])
  | 0, c :: t => ([], if c = stop then t else c :: t)
  | n + 1, c :: t =>
    if c = stop then ([], t)
    else match readUntil stop n t with
      | (w, rest) => (c :: w, rest)

/-- Up to the parenthesis that closes `depth` of them, or `n` characters. -/
def readParens : Nat → Nat → Text → Text × Text
  | _, _, [] => ([], [])
  | 0, _, p => ([], p)
  | n + 1, depth, c :: t =>
    if c = ')' ∧ depth = 1 then ([], t)
    else match readParens n (if c = '(' then depth + 1 else if c = ')' then depth - 1 else depth) t with
      | (w, rest) => (c :: w, rest)

/-- The digits of a number, the last first; `%` and `/` truncate. -/
def digitsRev : Nat → Int → Text
  | 0, _ => []
  | n + 1, v => if v = 0 then [] else Char.ofNat (48 + v.tmod 10).toNat :: digitsRev n (v.tdiv 10)

def number (v : Int) : Text := if v = 0 then ['0'] else (digitsRev 12 v).reverse

variable {ω : Type}

/-- `WEXITSTATUS` of a child that exited, 128 and the signal of one that was killed. -/
def waitStatus (st : Nat) : Int :=
  if st % 128 = 0 then (st / 256 % 256 : Nat)
  else if st % 128 ≠ 127 then (128 + st % 128 : Nat)
  else 1

/-- The output as a C string, without its trailing newlines. -/
def trimOutput (bytes : Text) : Text :=
  ((bytes.reverse.dropWhile fun c => c = '\n' || c = '\r').reverse).takeWhile (· ≠ '\x00')

def capture (W : World ω) (text : Text) : Run ω Text := do
  Act.emit (.capture text)
  match ← Act.reads fun σ => W.capture σ text with
  | (out, none) =>
    Act.modify fun σ => { σ with outside := out }
    return []
  | (out, some (bytes, st)) =>
    Act.modify fun σ => { σ with outside := out, exit := if st % 128 = 0 then waitStatus st else σ.exit }
    return trimOutput bytes

def getenv (name : Text) : Run ω Text := Act.reads fun σ => (σ.env name).getD []

/-- What stands behind a `$`: what is written for it, and the text to go on with. -/
def expandDollar (W : World ω) : Text → Run ω (Text × Text)
  | [] => pure (['$'], [])
  | d :: t =>
    if d = '(' then
      match readParens (maxLine - 1) 1 t with
      | (cb, rest) => do return (← capture W cb, rest)
    else if d = '{' then
      match readUntil '}' 255 t with
      | (vn, rest) => do return (← getenv vn, rest)
    else if d = '?' then do return (← Act.reads fun σ => number σ.exit, t)
    else if d = '$' then do return (← Act.reads fun σ => number σ.pid, t)
    else if d = '#' then do return (← Act.reads fun σ => number σ.pos.length, t)
    else if d = '0' then do return (← Act.reads State.argv0, t)
    else if isDigit d then do return (← Act.reads fun σ => (σ.pos[d.toNat - 49]?).getD [], t)
    else if isNameStart d then do
      return (← getenv (d :: t.takeWhile isNameChar), t.dropWhile isNameChar)
    else pure (['$'], d :: t)

/-- One turn of the loop of `expand_vars`: what is written for `c`, and the text to go on with. -/
def expandStep (W : World ω) (c : Char) (t : Text) : Run ω (Text × Text) :=
  if c = '\\' ∧ t ≠ [] then pure (t.take 1, t.drop 1)
  else if c = '\'' then pure (readUntil '\'' t.length t)
  else if c = backtick then
    match readUntil backtick (maxLine - 1) t with
    | (cb, rest) => do return (← capture W cb, rest)
  else if c = '$' then expandDollar W t
  else pure ([c], t)

/-- The loop of `expand_vars`, with `room` characters left in the buffer; a turn shortens the text. -/
def expandLoop (W : World ω) : Nat → Nat → Text → Run ω Text
  | 0, _, _ => pure []
  | _ + 1, _, [] => pure []
  | fuel + 1, room, c :: t =>
    if room = 0 then pure []
    else do
      let (w, rest) ← expandStep W c t
      return w.take room ++ (← expandLoop W fuel (room - w.length) rest)

/-- `expand_vars` into a buffer of `osz` bytes. -/
def expandVars (W : World ω) (osz : Nat) (text : Text) : Run ω Text :=
  expandLoop W text.length (osz - 1) text

/-! ## `tokenize` -/

/-- Where the word loop stands: outside of quotes, between `'`, or between `"`. -/
inductive Mode | plain | single | double
  deriving DecidableEq, Repr

def push (c : Char) (r : Text × Text) : Text × Text := (c :: r.1, r.2)

/-- A character behind a `\` between `"`: what it writes into a token with `room + 1` characters left. -/
def unescape (room : Nat) (c : Char) : Text :=
  if c = 'n' then ['\n']
  else if c = 't' then ['\t']
  else if c = '"' then ['"']
  else if c = '\\' then ['\\']
  else if room = 0 then ['\\'] else ['\\', c]

/-- The word loop of `tokenize`, with room for that many characters: the token, and the text to go on with. -/
def readWord : Mode → Nat → Text → Text × Text
  | _, _, [] => ([], [])
  | .plain, 0, p => ([], p)
  | .single, 0, c :: t => ([], if c = '\'' then t else c :: t)
  | .double, 0, c :: t => ([], if c = '"' then t else c :: t)
  | .single, n + 1, c :: t => if c = '\'' then readWord .plain (n + 1) t else push c (readWord .single n t)
  | .double, n + 1, c :: t =>
    if c = '"' then readWord .plain (n + 1) t
    else if c = '\\' then
      match t with
      | [] => push c (readWord .double n [])
      | d :: t => match readWord .double (n + 1 - (unescape n d).length) t with
        | (tok, rest) => (unescape n d ++ tok, rest)
    else push c (readWord .double n t)
  | .plain, n + 1, c :: t =>
    if c = '\'' then readWord .single (n + 1) t
    else if c = '"' then readWord .double (n + 1) t
    else if c = '\\' then
      match t with
      | [] => push c (readWord .plain n [])
      | d :: t => push d (readWord .plain n t)
    else if endsWord c then ([], c :: t)
    else push c (readWord .plain n t)

/-- The file of a redirection, and the text behind it. -/
def readFile (t : Text) : Text × Text :=
  (t.dropWhile (· = ' ')).span fun c => !isSpace c && c ≠ '|' && c ≠ '&' && c ≠ ';'

/-- How a turn of the loop of `tokenize` goes on: with the same command, or with the next one. -/
inductive Turn
  | same (cur : Cmd) (rest : Text)
  | next (cur : Cmd) (rest : Text)
  deriving DecidableEq, Repr

/-- A connector ends the command, when there is room for another one. -/
def connect (room : Bool) (cur : Cmd) (k : Connector) (rest : Text) : Turn :=
  if room then .next { cur with connector := k } rest else .same { cur with connector := k } rest

def addArg (cur : Cmd) (tok : Text) : Cmd :=
  if tok ≠ [] ∧ cur.argv.length < maxArgs - 1 then { cur with argv := cur.argv ++ [tok] } else cur

/-- One turn of the loop of `tokenize` at a character that is no blank; `none` when the word loop takes nothing, so that the
loop does not end. -/
def tokenStep (room : Bool) (cur : Cmd) (c : Char) (t : Text) : Option Turn :=
  if c = '|' ∧ t.head? = some '|' then some (connect room cur .or (t.drop 1))
  else if c = '&' ∧ t.head? = some '&' then some (connect room cur .and (t.drop 1))
  else if c = '|' then some (connect room cur .pipe t)
  else if c = '&' then some (.same { cur with background := true } t)
  else if c = ';' then some (connect (room && cur.argv ≠ []) cur .finish t)
  else if c = '2' ∧ t.take 3 = ['>', '&', '1'] then some (.same { cur with err2out := true } (t.drop 3))
  else if c = '2' ∧ t.head? = some '>' then
    match readFile (t.drop 1) with
    | (file, rest) => some (.same { cur with rerr := some file } rest)
  else if c = '>' ∧ t.head? = some '>' then
    match readFile (t.drop 1) with
    | (file, rest) => some (.same { cur with rapp := some file } rest)
  else if c = '>' then
    match readFile t with
    | (file, rest) => some (.same { cur with rout := some file } rest)
  else if c = '<' then
    match readFile t with
    | (file, rest) => some (.same { cur with rin := some file } rest)
  else
    match readWord .plain (maxLine - 1) (c :: t) with
    | (tok, rest) => if rest.length = t.length + 1 then none else some (.same (addArg cur tok) rest)

/-- The loop of `tokenize`, at the command `cur` of the number `nc`. -/
def tokenizeFrom : Nat → Nat → Cmd → Text → Option (List Cmd)
  | fuel, nc, cur, p =>
    match p.dropWhile isBlank with
    | [] => some [cur]
    | c :: t =>
      match fuel with
      | 0 => none
      | fuel + 1 =>
        match tokenStep (decide (nc + 1 < maxCmds)) cur c t with
        | none => none
        | some (.same cur rest) => tokenizeFrom fuel nc cur rest
        | some (.next cur rest) => (tokenizeFrom fuel (nc + 1) {} rest).map (cur :: ·)

/-- `tokenize`; `none` when it does not return. -/
def tokenize (line : Text) : Option (List Cmd) :=
  (tokenizeFrom line.length 0 {} line).map fun cmds =>
    match cmds with
    | [cur] => if cur.argv = [] then [] else [cur]
    | cmds => cmds

/-! ## `exec_cmd`, `exec_pipeline` and `exec_simple`

`expand` says what is done to an argument before it is passed on; the shell's own is `expandVars` into a buffer of `MAX_LINE`. -/

def builtins : List Text :=
  [['c', 'd'], ['p', 'w', 'd'], ['e', 'c', 'h', 'o'], ['e', 'x', 'p', 'o', 'r', 't'], ['u', 'n', 's', 'e', 't'],
    ['e', 'n', 'v'], ['l', 's'], ['c', 'a', 't'], ['r', 'e', 'a', 'd'], ['t', 'y', 'p', 'e'], ['h', 'e', 'l', 'p'],
    ['t', 'r', 'u', 'e'], ['f', 'a', 'l', 's', 'e'], ['b', 'r', 'e', 'a', 'k'],
    ['c', 'o', 'n', 't', 'i', 'n', 'u', 'e'], ['r', 'e', 't', 'u', 'r', 'n'], ['e', 'x', 'i', 't'], [':'],
    ['t', 'e', 's', 't'], ['[']]

def isBuiltin (name : Text) : Bool := builtins.contains name

/-- The arguments, each expanded into a buffer of its own. -/
def expandArgs (expand : Text → Run ω Text) : List Text → Run ω (List Text)
  | [] => pure []
  | a :: l => do
    let a ← expand a
    return a :: (← expandArgs expand l)

def argvOf (expand : Text → Run ω Text) (c : Cmd) : Run ω (List Text) := expandArgs expand (c.argv.take (maxArgs - 1))

/-- The files `apply_redirs` opens. -/
def Cmd.files (c : Cmd) : List Text := c.rin.toList ++ c.rout.toList ++ c.rapp.toList ++ c.rerr.toList

/-- **The child of a stage** up to the program it starts: the events, and the arguments, if it comes to that. -/
def child (W : World ω) (expand : Text → Run ω Text) (σ : State ω) (i : Nat) (c : Cmd) : List Event × List Text :=
  if c.files.all (W.opens (W.sees σ.outside i)) then
    match argvOf expand c { σ with outside := W.sees σ.outside i } with
    | (ev, some (a :: argv, _)) => (ev ++ [.invoke (a :: argv)], a :: argv)
    | (ev, _) => (ev, [])
  else ([], [])

/-- The children of the stages from the `i`-th on, up to the first that cannot be forked; the events stand in the order of
the stages. -/
def forkAll (W : World ω) (expand : Text → Run ω Text) (σ : State ω) : Nat → List Cmd →
    List Event × List (Cmd × List Text) × Bool
  | _, [] => ([], [], true)
  | i, c :: l =>
    if W.forks σ.outside i then
      match forkAll W expand σ (i + 1) l with
      | (ev, children, all) =>
        ((child W expand σ i c).1 ++ ev, (c, (child W expand σ i c).2) :: children, all)
    else ([], [], false)

/-- Fork the stages and wait for them. -/
def forkAndWait (W : World ω) (expand : Text → Run ω Text) (stages : List Cmd) (background : Bool) : Run ω Int := fun σ =>
  match forkAll W expand σ 0 stages with
  | (ev, children, all) =>
    match W.wait σ.outside children with
    | (out, st) =>
      if !all then (ev, some (1, { σ with outside := out }))
      else if background then (ev, some (0, { σ with outside := out }))
      else (ev, some (waitStatus st, { σ with outside := out, exit := waitStatus st }))

/-- A builtin in the shell itself. -/
def runBuiltin (W : World ω) (c : Cmd) (argv : List Text) : Run ω Int := fun σ => ([.invoke argv], W.builtin c argv σ)

def execCmd (W : World ω) (expand : Text → Run ω Text) (c : Cmd) : Run ω Int :=
  match c.argv with
  | [] => pure 0
  | name :: _ => do
    if isBuiltin (← expand name) then runBuiltin W c (← argvOf expand c)
    else forkAndWait W expand [c] c.background

def execPipeline (W : World ω) (expand : Text → Run ω Text) : List Cmd → Run ω Int
  | [] => pure 0
  | [c] => execCmd W expand c
  | stages => forkAndWait W expand stages false

/-- The commands of the first pipeline, its last one apart, and those behind it. -/
def splitPipe : Cmd → List Cmd → List Cmd × Cmd × List Cmd
  | c, [] => ([], c, [])
  | c, d :: l =>
    if c.connector = .pipe then
      match splitPipe d l with
      | (stages, last, rest) => (c :: stages, last, rest)
    else ([], c, d :: l)

/-- A list ends behind a `||` that has succeeded and behind a `&&` that has failed. -/
def skipsRest (op : Connector) (result : Int) : Bool := op = .or && result = 0 || op = .and && result ≠ 0

/-- The loop of `exec_simple`. -/
def execChain (W : World ω) (expand : Text → Run ω Text) : Nat → Int → List Cmd → Run ω Int
  | 0, result, _ => pure result
  | _ + 1, result, [] => pure result
  | fuel + 1, _, c :: l =>
    match splitPipe c l with
    | (stages, last, rest) => do
      let result ← execPipeline W expand (stages ++ [last])
      Act.modify fun σ => { σ with exit := result }
      if skipsRest last.connector result then return result
      else execChain W expand fuel result rest

def lastExit : Run ω Int := Act.reads State.exit

def shellExpand (W : World ω) : Text → Run ω Text := expandVars W maxLine

def execSimple (W : World ω) (line : Text) : Run ω Int :=
  match line.dropWhile isBlank with
  | [] => lastExit
  | c :: t =>
    if c = '#' then lastExit
    else match tokenize (c :: t) with
      | none => Act.never
      | some [] => lastExit
      | some cmds => execChain W (shellExpand W) cmds.length 0 cmds

/-! ## `sh_run` -/

def trimWs (s : Text) : Text :=
  ((s.dropWhile isBlank).reverse.dropWhile fun c => isBlank c || c = '\r' || c = '\n').reverse

/-- Up to a `;` outside of quotes, or `n` characters. -/
def readSeg : Bool → Bool → Nat → Text → Text × Text
  | _, _, _, [] => ([], [])
  | _, _, 0, p => ([], p)
  | qi, qd, n + 1, c :: t =>
    if c = '\'' ∧ qd = false then push c (readSeg (!qi) qd n t)
    else if c = '"' ∧ qi = false then push c (readSeg qi (!qd) n t)
    else if c = ';' ∧ qi = false ∧ qd = false then ([], t)
    else push c (readSeg qi qd n t)

/-- The segments of an expanded line; each takes a character at least. -/
def segments : Nat → Text → List Text
  | 0, _ => []
  | _ + 1, [] => []
  | fuel + 1, c :: t =>
    match readSeg false false (maxLine - 1) (c :: t) with
    | (seg, rest) => trimWs seg :: segments fuel rest

/-- Run the segments one after the other, until a `break`, `continue` or `return`. -/
def runSegs {α : Type} (exec : α → Run ω Int) (skip : α → Bool) : Int → List α → Run ω Int
  | ret, [] => pure ret
  | ret, seg :: l => do
    let ret ← if skip seg then pure ret else do
      let ret ← exec seg
      Act.modify fun σ => { σ with exit := ret }
      pure ret
    if ← Act.reads State.stop then return ret
    else runSegs exec skip ret l

/-- The line begins with a keyword of a compound command. -/
def isFlow (line : Text) : Bool :=
  ['f', 'o', 'r', ' '].isPrefixOf line || ['w', 'h', 'i', 'l', 'e', ' '].isPrefixOf line ||
    ['i', 'f', ' '].isPrefixOf line || line = ['i', 'f']

def shRun (W : World ω) (input : Text) : Run ω Int :=
  match trimWs (input.take (maxLine * 8 - 1)) with
  | [] => lastExit
  | c :: t =>
    if c = '#' then lastExit
    else if isFlow (c :: t) then W.flow (c :: t)
    else do
      let expanded ← expandVars W (maxLine * 4) (c :: t)
      if ';' ∉ expanded then execSimple W expanded
      else runSegs (execSimple W) List.isEmpty 0 (segments expanded.length expanded)

end Sh
end Pico
