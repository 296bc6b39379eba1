import Mathlib.Data.List.TakeWhile
import Mathlib.Data.Nat.Find
import Mathlib.Logic.Function.Iterate
import Picomimi.ExecStack
/-!
# ExecScript — the arguments of `do_execve`, through `#!` scripts

`do_execve` copies both lists, and for a file that begins with `#!` makes a new argument list and calls itself with the
interpreter.  The files are a function of the path, and every allocation of every level has an answer of its own.  What comes
after for a file that is no script, where the lists go to `build_user_stack`, is a parameter: it fails with an error, or the
program is started; a failure after the old address space is given up ends the process, and is an error here.  The source
counts no levels; `doExecve_ends_iff` says when the calls come to an end within the kernel stack.
-/
namespace Pico
namespace Script

open Exec

def enoent : Int := 2

/-- What the allocators answer at one level: whether the two `filp_open` find memory, the copies of `argv` and `envp`, and the
table and the strings of the new list. -/
structure Answers where
  opened : Bool
  reopened : Bool
  argvTable : Bool
  argvStr : Nat → Bool
  envpTable : Bool
  envpStr : Nat → Bool
  newTable : Bool
  interp : Bool
  iarg : Bool
  script : Bool
  arg : Nat → Bool

/-- The level ends with a program that runs on these lists, with an error, or by reading through a null pointer. -/
inductive Result where
  | started (argv envp : List CStr)
  | error (e : Int)
  | fault

/-! ## The lists -/

/-- The loop of `copy_strarray`; without a result when a string is not found memory for. -/
def copyStrs (ok : Nat → Bool) : Nat → List CStr → Option (List CStr)
  | _, [] => some []
  | i, str :: l => if ok i then (copyStrs ok (i + 1) l).map (str :: ·) else none

def copyStrarray (table : Bool) (ok : Nat → Bool) (src : List CStr) : Option (List CStr) :=
  if table then copyStrs ok 0 src else none

/-- `for (i = 1; i < argc; i++)`: a string without memory is left out. -/
def keepArgs (ok : Nat → Bool) : Nat → List CStr → List CStr
  | _, [] => []
  | i, str :: l => if ok i then str :: keepArgs ok (i + 1) l else keepArgs ok (i + 1) l

/-! ## The first line -/

def magicSize : Nat := 255

def isEol (c : UInt8) : Bool := c = 0 || c = 10 || c = 13
def isBlank (c : UInt8) : Bool := c = 32 || c = 9

/-- The bytes of a string of C, up to `n` of them. -/
def take (n : Nat) (str : CStr) : CStr := ⟨str.bytes.take n, fun h => str.noNul (List.mem_of_mem_take h)⟩

/-- From `#!` to the end of the line. -/
def lineAfter (buf : List UInt8) : CStr where
  bytes := (buf.drop 2).takeWhile fun c => !isEol c
  noNul h := absurd (List.mem_takeWhile_imp h) (by decide)

/-- The interpreter. -/
def interpOf (line : CStr) : CStr where
  bytes := (line.bytes.dropWhile isBlank).takeWhile fun c => !isBlank c
  noNul h := line.noNul ((List.dropWhile_sublist _).subset ((List.takeWhile_sublist _).subset h))

/-- What follows the interpreter, from the first byte that is not blank. -/
def restOf (line : CStr) : CStr where
  bytes := ((line.bytes.dropWhile isBlank).dropWhile fun c => !isBlank c).dropWhile isBlank
  noNul h := line.noNul ((List.dropWhile_sublist _).subset ((List.dropWhile_sublist _).subset ((List.dropWhile_sublist _).subset h)))

/-- The optional argument. -/
def iargOf (line : CStr) : Option CStr := if (restOf line).bytes = [] then none else some (restOf line)

/-- The line of a script, or none: the file is what `vfs_read` put into the buffer. -/
def shebang (file : List UInt8) : Option CStr :=
  if (file.take magicSize).take 2 = [0x23, 0x21] then some (lineAfter (file.take magicSize)) else none

/-! ## `do_execve` -/

variable (fs : List UInt8 → Option (List UInt8)) (load : List UInt8 → List CStr → List CStr → Option Int)
  (mem : Nat → Answers)

/-- The argument list the interpreter is called with. -/
def newArgv (a : Answers) (line kFilename : CStr) (kArgv : List CStr) : List CStr :=
  (if a.interp then [interpOf line] else []) ++
  (match iargOf line with
    | none => []
    | some iarg => if a.iarg then [iarg] else []) ++
  (if a.script then [kFilename] else []) ++ keepArgs a.arg 1 (kArgv.drop 1)

def doExecve : Nat → Nat → CStr → List CStr → List CStr → Option Result
  | 0, _, _, _, _ => none
  | fuel + 1, k, filename, argv, envp =>
    let a := mem k
    let kFilename := take magicSize filename
    let kArgv := copyStrarray a.argvTable a.argvStr argv
    let kEnvp := copyStrarray a.envpTable a.envpStr envp
    match if a.opened then fs kFilename.bytes else none with
    | none => some (.error (-enoent))
    | some file =>
      match shebang file with
      | some line =>
        if a.newTable = false then some (.error (-enomem))
        -- `argc` is that of the list, also when the copy is `NULL`
        else if kArgv = none ∧ 2 ≤ argv.length then some .fault
        else doExecve fuel (k + 1) (take magicSize (interpOf line)) (newArgv a line kFilename (kArgv.getD [])) envp
      | none =>
        if a.reopened = false then some (.error (-enoent))
        else
          match load file (kArgv.getD []) (kEnvp.getD []) with
          | some e => some (.error e)
          | none => some (.started (kArgv.getD []) (kEnvp.getD []))

/-! ## The chain of scripts -/

def IsScript (file : List UInt8) : Prop := file.take 2 = [0x23, 0x21]

/-- **The scripts from a path to a program**, each with its path and its first line, which is no longer than the buffer. -/
inductive Chain : CStr → List (CStr × CStr) → List UInt8 → Prop where
  | program {path file} : fs path.bytes = some file → ¬ IsScript file → Chain path [] file
  | script {path file l program} : fs path.bytes = some file → IsScript file → (lineAfter file).bytes.length ≤ 253 →
      Chain (interpOf (lineAfter file)) l program → Chain path ((path, lineAfter file) :: l) program

/-- Element 0 replaced by the interpreter, its argument and the script. -/
def replaceHead (argv : List CStr) (s : CStr × CStr) : List CStr :=
  interpOf s.2 :: (iargOf s.2).toList ++ s.1 :: argv.drop 1

/-- The list the program should get. -/
def chainArgs (argv : List CStr) (l : List (CStr × CStr)) : List CStr := l.foldl replaceHead argv

/-- **The program has the lists it should have, or `do_execve` fails.** -/
def Exact (argv envp : List CStr) (r : Option Result) : Prop :=
  r = some (.started argv envp) ∨ ∃ e, r = some (.error e)

/-! ## What an allocation that fails does -/

/-- Of the answers from `i` on, the first `n` find memory. -/
def Found (ok : Nat → Bool) (i n : Nat) : Prop := ∀ j, i ≤ j → j < i + n → ok j = true

/-- The copy is made. -/
def Copied (table : Bool) (ok : Nat → Bool) (src : List CStr) : Prop := table = true ∧ Found ok 0 src.length

/-- The copy is made, or no element of it is read. -/
def Passes (a : Answers) (argv : List CStr) : Prop := Copied a.argvTable a.argvStr argv ∨ argv.length ≤ 1

/-- Every string of the new list finds memory. -/
def Whole (a : Answers) (line : CStr) (argv : List CStr) : Prop :=
  a.interp = true ∧ (iargOf line ≠ none → a.iarg = true) ∧ a.script = true ∧ Found a.arg 1 (argv.length - 1)

/-- A file of the chain is not opened, or a table not found, before a copy that failed is read. -/
def Stops : Nat → List CStr → List (CStr × CStr) → Prop
  | k, _, [] => (mem k).opened = false ∨ (mem k).reopened = false
  | k, argv, s :: l => (mem k).opened = false ∨ (mem k).newTable = false ∨
      Passes (mem k) argv ∧ Stops (k + 1) (newArgv (mem k) s.2 s.1 argv) l

/-- No string is left out, and the program's own copies are made. -/
def Keeps : Nat → List CStr → List CStr → List (CStr × CStr) → Prop
  | k, argv, envp, [] => (Copied (mem k).argvTable (mem k).argvStr argv ∨ argv = []) ∧
      (Copied (mem k).envpTable (mem k).envpStr envp ∨ envp = [])
  | k, argv, envp, s :: l => Passes (mem k) argv ∧ Whole (mem k) s.2 argv ∧ Keeps (k + 1) (replaceHead argv s) envp l

section Lemmas

variable {fs : List UInt8 → Option (List UInt8)} {load : List UInt8 → List CStr → List CStr → Option Int}
  {mem : Nat → Answers} {a : Answers} {ok : Nat → Bool} {t : Bool} {l m argv envp : List CStr} {line path : CStr}
  {s : CStr × CStr} {file : List UInt8}

theorem found_succ {i n : Nat} : Found ok i (n + 1) ↔ ok i = true ∧ Found ok (i + 1) n := by
  constructor
  · exact fun h => ⟨h i (Nat.le_refl _) (by omega), fun j hj hlt => h j (by omega) (by omega)⟩
  · rintro ⟨h0, h⟩ j hj hlt
    rcases Nat.eq_or_lt_of_le hj with rfl | hj
    · exact h0
    · exact h j hj (by omega)

theorem found_zero {i : Nat} : Found ok i 0 := fun _ hj hlt => absurd hlt (Nat.not_lt.2 hj)

theorem copyStrs_eq : ∀ (l : List CStr) (i : Nat), Found ok i l.length → copyStrs ok i l = some l
  | [], _, _ => rfl
  | str :: l, i, h => by
    obtain ⟨h0, h⟩ := found_succ.1 h
    rw [copyStrs, if_pos h0, copyStrs_eq l (i + 1) h]
    rfl

theorem copyStrs_eq_none : ∀ (l : List CStr) (i : Nat), ¬ Found ok i l.length → copyStrs ok i l = none
  | [], _, h => absurd found_zero h
  | str :: l, i, h => by
    rw [copyStrs]
    split
    · rename_i h0
      rw [copyStrs_eq_none l (i + 1) fun hall => h (found_succ.2 ⟨h0, hall⟩)]
      rfl
    · rfl

theorem Copied.eq (h : Copied t ok l) : copyStrarray t ok l = some l := by
  rw [copyStrarray, if_pos h.1, copyStrs_eq l 0 h.2]

theorem copyStrarray_eq_none (h : ¬ Copied t ok l) : copyStrarray t ok l = none := by
  unfold copyStrarray
  split
  · rename_i ht
    exact copyStrs_eq_none l 0 fun hall => h ⟨ht, hall⟩
  · rfl

/-- What the program gets is the list, or no string. -/
theorem copyStrarray_getD_eq_iff : (copyStrarray t ok l).getD [] = l ↔ Copied t ok l ∨ l = [] := by
  by_cases h : Copied t ok l
  · exact iff_of_true (by rw [h.eq]; rfl) (.inl h)
  · rw [copyStrarray_eq_none h, or_iff_right h]
    exact eq_comm

theorem copyStrarray_getD_length_le (t : Bool) (ok : Nat → Bool) (l : List CStr) :
    ((copyStrarray t ok l).getD []).length ≤ l.length := by
  by_cases h : Copied t ok l
  · rw [h.eq]
    exact Nat.le_refl _
  · rw [copyStrarray_eq_none h]
    exact Nat.zero_le _

theorem keepArgs_length_le (ok : Nat → Bool) : ∀ (l : List CStr) (i : Nat), (keepArgs ok i l).length ≤ l.length
  | [], _ => Nat.le_refl _
  | str :: l, i => by
    rw [keepArgs]
    have ih := keepArgs_length_le ok l (i + 1)
    split
    · exact Nat.succ_le_succ ih
    · exact Nat.le_succ_of_le ih

theorem keepArgs_eq : ∀ (l : List CStr) (i : Nat), Found ok i l.length → keepArgs ok i l = l
  | [], _, _ => rfl
  | str :: l, i, h => by
    obtain ⟨h0, h⟩ := found_succ.1 h
    rw [keepArgs, if_pos h0, keepArgs_eq l (i + 1) h]

theorem keepArgs_length_lt : ∀ (l : List CStr) (i : Nat), ¬ Found ok i l.length → (keepArgs ok i l).length < l.length
  | [], _, h => absurd found_zero h
  | str :: l, i, h => by
    rw [keepArgs]
    split
    · rename_i h0
      exact Nat.succ_lt_succ (keepArgs_length_lt l (i + 1) fun hall => h (found_succ.2 ⟨h0, hall⟩))
    · exact Nat.lt_succ_of_le (keepArgs_length_le ok l (i + 1))

/-! ## One level -/

theorem Passes.drop (h : Passes a argv) : ((copyStrarray a.argvTable a.argvStr argv).getD []).drop 1 = argv.drop 1 := by
  by_cases hc : Copied a.argvTable a.argvStr argv
  · rw [hc.eq]
    rfl
  · rw [copyStrarray_eq_none hc, List.drop_eq_nil_of_le (h.resolve_left hc)]
    rfl

/-- **No string is left out** of the new list, or it is shorter than it should be. -/
theorem newArgv_cases (a : Answers) (s : CStr × CStr) (l argv : List CStr) (hl : l.drop 1 = argv.drop 1) :
    (Whole a s.2 argv ∧ newArgv a s.2 s.1 l = replaceHead argv s) ∨
    (¬ Whole a s.2 argv ∧ (newArgv a s.2 s.1 l).length < (replaceHead argv s).length) := by
  unfold newArgv Whole replaceHead
  have hlen : argv.length - 1 = (argv.drop 1).length := List.length_drop.symm
  rw [hl, hlen]
  generalize argv.drop 1 = args
  by_cases hf : Found a.arg 1 args.length
  · rw [keepArgs_eq _ _ hf]
    cases a.interp <;> cases a.script <;> cases hi : iargOf s.2 <;> cases a.iarg <;> simp +arith [hf]
  · have hlt := keepArgs_length_lt args 1 hf
    refine .inr ⟨fun h => hf h.2.2.2, ?_⟩
    have h1 : ∀ (b : Bool) (str : CStr), (if b then [str] else []).length ≤ 1 := by
      rintro (_ | _) str
      · exact Nat.zero_le _
      · exact Nat.le_refl _
    have h2 : (match iargOf s.2 with
      | none => []
      | some iarg => if a.iarg then [iarg] else []).length ≤ (iargOf s.2).toList.length := by
      cases iargOf s.2 with
      | none => exact Nat.le_refl _
      | some iarg => exact h1 a.iarg iarg
    have h3 := h1 a.interp (interpOf s.2)
    have h4 := h1 a.script s.1
    simp only [List.length_append, List.length_cons]
    omega

/-- The list without element 0 is what the new one is made of. -/
theorem newArgv_congr (a : Answers) (line kFilename : CStr) (h : l.drop 1 = m.drop 1) :
    newArgv a line kFilename l = newArgv a line kFilename m := by
  unfold newArgv
  rw [h]

theorem cstr_ext {p q : CStr} (h : p.bytes = q.bytes) : p = q := by
  obtain ⟨_, _⟩ := p
  obtain ⟨_, _⟩ := q
  cases h
  rfl

/-- The line in the buffer is the first line of the file. -/
theorem shebang_eq (hs : IsScript file) (hlen : (lineAfter file).bytes.length ≤ 253) :
    shebang file = some (lineAfter file) := by
  have h2 : (file.take magicSize).take 2 = [0x23, 0x21] := by
    rw [List.take_take, Nat.min_eq_left (by decide)]
    exact hs
  have hline : (lineAfter (file.take magicSize)).bytes = (lineAfter file).bytes := by
    show ((file.take 255).drop 2).takeWhile _ = (file.drop 2).takeWhile _
    rw [List.drop_take, ← List.take_takeWhile]
    exact List.take_of_length_le hlen
  rw [shebang, if_pos h2]
  exact congrArg some (cstr_ext hline)

theorem shebang_eq_none (hs : ¬ IsScript file) : shebang file = none := by
  refine if_neg fun h => hs ?_
  rwa [List.take_take, Nat.min_eq_left (by decide)] at h

theorem take_of_le (h : path.bytes.length ≤ magicSize) : take magicSize path = path :=
  cstr_ext (List.take_of_length_le h)

theorem interpOf_length_le (line : CStr) : (interpOf line).bytes.length ≤ line.bytes.length :=
  ((List.takeWhile_sublist _).trans (List.dropWhile_sublist _)).length_le

/-- The path of an interpreter fits its copy. -/
theorem take_interpOf (hlen : (lineAfter file).bytes.length ≤ 253) :
    take magicSize (interpOf (lineAfter file)) = interpOf (lineAfter file) :=
  take_of_le ((interpOf_length_le _).trans (hlen.trans (by decide)))

theorem copy_none_iff : copyStrarray a.argvTable a.argvStr argv = none ∧ 2 ≤ argv.length ↔ ¬ Passes a argv := by
  unfold Passes
  by_cases hc : Copied a.argvTable a.argvStr argv
  · rw [hc.eq]
    exact iff_of_false (fun h => Option.some_ne_none _ h.1) fun h => h (.inl hc)
  · rw [copyStrarray_eq_none hc, or_iff_right hc]
    simp only [true_and]
    omega

/-- **A level with a script.** -/
theorem doExecve_line (load : List UInt8 → List CStr → List CStr → Option Int)
    (mem : Nat → Answers) (fuel k : Nat) (argv envp : List CStr) {filename : CStr} (hfs : fs (take magicSize filename).bytes = some file)
    (hline : shebang file = some line) :
    ((mem k).opened = false → doExecve fs load mem (fuel + 1) k filename argv envp = some (.error (-enoent))) ∧
    ((mem k).opened = true → (mem k).newTable = false →
      doExecve fs load mem (fuel + 1) k filename argv envp = some (.error (-enomem))) ∧
    ((mem k).opened = true → (mem k).newTable = true → ¬ Passes (mem k) argv →
      doExecve fs load mem (fuel + 1) k filename argv envp = some .fault) ∧
    ((mem k).opened = true → (mem k).newTable = true → Passes (mem k) argv →
      doExecve fs load mem (fuel + 1) k filename argv envp = doExecve fs load mem fuel (k + 1)
        (take magicSize (interpOf line)) (newArgv (mem k) line (take magicSize filename) argv) envp) := by
  refine ⟨fun ho => ?_, fun ho ht => ?_, fun ho ht hno => ?_, fun ho ht hpass => ?_⟩
  · simp [doExecve, ho]
  · simp [doExecve, ho, hfs, hline, ht]
  · simp [doExecve, ho, hfs, hline, ht, copy_none_iff.2 hno]
  · conv => lhs; unfold doExecve
    simp only [ho, if_true, hfs, hline, ht, Bool.true_eq_false, if_false]
    rw [if_neg fun h => copy_none_iff.1 h hpass, newArgv_congr _ _ _ hpass.drop]

/-- **The level of the program.** -/
theorem doExecve_program (load : List UInt8 → List CStr → List CStr → Option Int)
    (mem : Nat → Answers) (fuel k : Nat) (argv envp : List CStr) {filename : CStr} (hfs : fs (take magicSize filename).bytes = some file)
    (hline : shebang file = none) :
    ((mem k).opened = false ∨ (mem k).reopened = false →
      doExecve fs load mem (fuel + 1) k filename argv envp = some (.error (-enoent))) ∧
    ((mem k).opened = true → (mem k).reopened = true →
      doExecve fs load mem (fuel + 1) k filename argv envp =
        match load file ((copyStrarray (mem k).argvTable (mem k).argvStr argv).getD [])
          ((copyStrarray (mem k).envpTable (mem k).envpStr envp).getD []) with
        | some e => some (.error e)
        | none => some (.started ((copyStrarray (mem k).argvTable (mem k).argvStr argv).getD [])
            ((copyStrarray (mem k).envpTable (mem k).envpStr envp).getD []))) := by
  unfold doExecve
  refine ⟨fun h => ?_, fun ho hr => by simp [ho, hr, hfs, hline]⟩
  cases ho : (mem k).opened with
  | false => simp [ho]
  | true => simp [ho, hfs, hline, h.resolve_left (by simp [ho])]

/-- A level with a script of the chain goes on, or fails. -/
theorem doExecve_script (load : List UInt8 → List CStr → List CStr → Option Int)
    (fuel : Nat) (argv envp : List CStr) {filename : CStr} {k : Nat} (hp : take magicSize filename = path)
    (hfs : fs path.bytes = some file) (hs : IsScript file) (hlen : (lineAfter file).bytes.length ≤ 253)
    (ho : (mem k).opened = true) (ht : (mem k).newTable = true) :
    (¬ Passes (mem k) argv → doExecve fs load mem (fuel + 1) k filename argv envp = some .fault) ∧
    (Passes (mem k) argv → doExecve fs load mem (fuel + 1) k filename argv envp = doExecve fs load mem fuel (k + 1)
      (interpOf (lineAfter file)) (newArgv (mem k) (lineAfter file) path argv) envp) := by
  subst hp
  have h := doExecve_line load mem fuel k argv envp hfs (shebang_eq hs hlen)
  rw [take_interpOf hlen] at h
  exact ⟨h.2.2.1 ho ht, h.2.2.2 ho ht⟩

/-! ## The chain -/

/-- **What stops the chain is returned as an error.** -/
theorem Chain.stops {l : List (CStr × CStr)} (hc : Chain fs path l file) :
    ∀ {fuel k : Nat} {filename : CStr} {argv : List CStr}, l.length < fuel → take magicSize filename = path →
      Stops mem k argv l → ∃ e, doExecve fs load mem fuel k filename argv envp = some (.error e) := by
  induction hc with
  | program hfs hs =>
    rintro (_ | fuel) k filename argv hfuel hp h
    · exact absurd hfuel (Nat.not_lt_zero _)
    · exact ⟨_, (doExecve_program load mem fuel k argv envp (hp ▸ hfs) (shebang_eq_none hs)).1 h⟩
  | script hfs hs hlen _ ih =>
    rintro (_ | fuel) k filename argv hfuel hp h
    · exact absurd hfuel (Nat.not_lt_zero _)
    obtain ⟨hclosed, htable, -, -⟩ := doExecve_line load mem fuel k argv envp (hp ▸ hfs) (shebang_eq hs hlen)
    cases ho : (mem k).opened with
    | false => exact ⟨_, hclosed ho⟩
    | true =>
      cases ht : (mem k).newTable with
      | false => exact ⟨_, htable ho ht⟩
      | true =>
        obtain ⟨hpass, hstops⟩ := (h.resolve_left (by simp [ho])).resolve_left (by simp [ht])
        rw [(doExecve_script load fuel argv envp hp hfs hs hlen ho ht).2 hpass]
        exact ih (Nat.lt_of_succ_lt_succ hfuel) (take_interpOf hlen) hstops

/-- **Where nothing stops the chain and no string is left out**, the program gets the lists it should. -/
theorem Chain.keeps {l : List (CStr × CStr)} (hc : Chain fs path l file) :
    ∀ {fuel k : Nat} {filename : CStr} {argv : List CStr}, l.length < fuel → take magicSize filename = path →
      ¬ Stops mem k argv l → Keeps mem k argv envp l →
      doExecve fs load mem fuel k filename argv envp =
        match load file (chainArgs argv l) envp with
        | some e => some (.error e)
        | none => some (.started (chainArgs argv l) envp) := by
  induction hc with
  | program hfs hs =>
    rintro (_ | fuel) k filename argv hfuel hp hstop hkeep
    · exact absurd hfuel (Nat.not_lt_zero _)
    rw [(doExecve_program _ mem fuel k argv envp (hp ▸ hfs) (shebang_eq_none hs)).2 (by simpa using fun h => hstop (.inl h)) (by simpa using fun h => hstop (.inr h)),
      copyStrarray_getD_eq_iff.2 hkeep.1, copyStrarray_getD_eq_iff.2 hkeep.2]
    rfl
  | @script p f l q hfs hs hlen _ ih =>
    rintro (_ | fuel) k filename argv hfuel hp hstop ⟨hpass, hwhole, hkeep⟩
    · exact absurd hfuel (Nat.not_lt_zero _)
    have hnew : newArgv (mem k) (lineAfter f) p argv = replaceHead argv (p, lineAfter f) :=
      ((newArgv_cases (mem k) (p, lineAfter f) argv argv rfl).resolve_right fun h => h.1 hwhole).2
    rw [(doExecve_script load fuel argv envp hp hfs hs hlen (by simpa using fun h => hstop (.inl h))
      (by simpa using fun h => hstop (.inr (.inl h)))).2 hpass, hnew]
    exact ih (Nat.lt_of_succ_lt_succ hfuel) (take_interpOf hlen)
      (fun h => hstop (.inr (.inr ⟨hpass, hnew ▸ h⟩))) hkeep

theorem replaceHead_length (argv : List CStr) (s : CStr × CStr) :
    (replaceHead argv s).length = (iargOf s.2).toList.length + (argv.length - 1) + 2 := by
  simp only [replaceHead, List.length_append, List.length_cons, List.length_drop]
  omega

/-- A loader that starts every program. -/
def starts : List UInt8 → List CStr → List CStr → Option Int := fun _ _ _ => none

/-- **A list that is too short stays too short.** -/
theorem Chain.short {l : List (CStr × CStr)} (hc : Chain fs path l file) :
    ∀ {fuel k : Nat} {filename : CStr} {argv m : List CStr}, l.length < fuel → take magicSize filename = path →
      ¬ Stops mem k argv l → argv.length < m.length → 2 ≤ m.length →
      doExecve fs starts mem fuel k filename argv envp = some .fault ∨
      ∃ x y, doExecve fs starts mem fuel k filename argv envp = some (.started x y) ∧ x.length < (chainArgs m l).length := by
  induction hc with
  | program hfs hs =>
    rintro (_ | fuel) k filename argv m hfuel hp hstop hlt -
    · exact absurd hfuel (Nat.not_lt_zero _)
    rw [(doExecve_program _ mem fuel k argv envp (hp ▸ hfs) (shebang_eq_none hs)).2 (by simpa using fun h => hstop (.inl h)) (by simpa using fun h => hstop (.inr h))]
    exact .inr ⟨_, _, rfl, (copyStrarray_getD_length_le _ _ _).trans_lt hlt⟩
  | @script p f l q hfs hs hlen _ ih =>
    rintro (_ | fuel) k filename argv m hfuel hp hstop hlt htwo
    · exact absurd hfuel (Nat.not_lt_zero _)
    obtain ⟨hfault, hnext⟩ := doExecve_script starts fuel argv envp hp hfs hs hlen
      (by simpa using fun h => hstop (.inl h)) (by simpa using fun h => hstop (.inr (.inl h)))
    by_cases hpass : Passes (mem k) argv
    · rw [hnext hpass]
      refine ih (Nat.lt_of_succ_lt_succ hfuel) (take_interpOf hlen) (fun h => hstop (.inr (.inr ⟨hpass, h⟩))) ?_ ?_
      · have hle : (newArgv (mem k) (lineAfter f) p argv).length ≤ (replaceHead argv (p, lineAfter f)).length := by
          rcases newArgv_cases (mem k) (p, lineAfter f) argv argv rfl with ⟨-, h⟩ | ⟨-, h⟩
          · rw [h]
          · exact Nat.le_of_lt h
        rw [replaceHead_length] at hle ⊢
        omega
      · rw [replaceHead_length]
        omega
    · exact .inl (hfault hpass)

/-- **Where nothing stops the chain and a string is left out**, a program that starts has not the lists it should. -/
theorem Chain.drops {l : List (CStr × CStr)} (hc : Chain fs path l file) :
    ∀ {fuel k : Nat} {filename : CStr} {argv : List CStr}, l.length < fuel → take magicSize filename = path →
      ¬ Stops mem k argv l → ¬ Keeps mem k argv envp l →
      doExecve fs starts mem fuel k filename argv envp = some .fault ∨
      ∃ x y, doExecve fs starts mem fuel k filename argv envp = some (.started x y) ∧ ¬ (x = chainArgs argv l ∧ y = envp) := by
  induction hc with
  | program hfs hs =>
    rintro (_ | fuel) k filename argv hfuel hp hstop hkeep
    · exact absurd hfuel (Nat.not_lt_zero _)
    rw [(doExecve_program _ mem fuel k argv envp (hp ▸ hfs) (shebang_eq_none hs)).2 (by simpa using fun h => hstop (.inl h)) (by simpa using fun h => hstop (.inr h))]
    refine .inr ⟨_, _, rfl, fun h => hkeep ?_⟩
    exact ⟨copyStrarray_getD_eq_iff.1 h.1, copyStrarray_getD_eq_iff.1 h.2⟩
  | @script p f l q hfs hs hlen hnextc ih =>
    rintro (_ | fuel) k filename argv hfuel hp hstop hkeep
    · exact absurd hfuel (Nat.not_lt_zero _)
    obtain ⟨hfault, hnext⟩ := doExecve_script starts fuel argv envp hp hfs hs hlen
      (by simpa using fun h => hstop (.inl h)) (by simpa using fun h => hstop (.inr (.inl h)))
    by_cases hpass : Passes (mem k) argv
    · rw [hnext hpass]
      have hstop' : ¬ Stops mem (k + 1) (newArgv (mem k) (lineAfter f) p argv) l := fun h => hstop (.inr (.inr ⟨hpass, h⟩))
      rcases newArgv_cases (mem k) (p, lineAfter f) argv argv rfl with ⟨hwhole, hnew⟩ | ⟨-, hlt⟩
      · rw [hnew] at hstop' ⊢
        exact ih (Nat.lt_of_succ_lt_succ hfuel) (take_interpOf hlen) hstop' fun h => hkeep ⟨hpass, hwhole, h⟩
      · rcases hnextc.short (Nat.lt_of_succ_lt_succ hfuel) (take_interpOf hlen) hstop' hlt
          (by rw [replaceHead_length]; omega) with h | ⟨x, y, h, hshort⟩
        · exact .inl h
        · exact .inr ⟨x, y, h, fun heq => Nat.ne_of_lt hshort (congrArg List.length heq.1)⟩
    · exact .inl (hfault hpass)

end Lemmas

/-- **exec passes the right arguments or fails, whatever the loader does**, exactly when an open or a table that fails
stops the chain, or no string is left out. -/
theorem doExecve_exact_iff {l : List (CStr × CStr)} {path : CStr} {file : List UInt8} {fuel : Nat}
    (hc : Chain fs (take magicSize path) l file) (hfuel : l.length < fuel) (argv envp : List CStr) :
    (∀ load, Exact (chainArgs argv l) envp (doExecve fs load mem fuel 0 path argv envp)) ↔
      Stops mem 0 argv l ∨ Keeps mem 0 argv envp l := by
  by_cases hstop : Stops mem 0 argv l
  · exact iff_of_true (fun load => .inr (hc.stops hfuel rfl hstop)) (.inl hstop)
  rw [or_iff_right hstop]
  constructor
  · refine fun h => Classical.byContradiction fun hkeep => ?_
    have hexact := h starts
    rcases hc.drops hfuel rfl hstop hkeep with hr | ⟨x, y, hr, hne⟩
    · rw [hr] at hexact
      rcases hexact with h | ⟨e, h⟩
      · cases h
      · cases h
    · rw [hr] at hexact
      rcases hexact with h | ⟨e, h⟩
      · cases h
        exact hne ⟨rfl, rfl⟩
      · cases h
  · intro hkeep load
    rw [hc.keeps hfuel rfl hstop hkeep]
    cases load file (chainArgs argv l) envp with
    | none => exact .inl rfl
    | some e => exact .inr ⟨e, rfl⟩

/-! ## Whether the recursion ends -/

/-- **The recursion ends**, with a program or an error, within the calls that the kernel stack holds.  `levels` is their
number: a call has three buffers of 256 bytes on a stack of 16 pages, so that there are 85 at most. -/
def Ends (levels : Nat) (path : CStr) (argv envp : List CStr) : Prop :=
  ∃ r, doExecve fs load mem levels 0 path argv envp = some r ∧ r ≠ .fault

/-- The first line of the file at a path, if it is a script. -/
def lineAt (path : CStr) : Option CStr := (fs (take magicSize path).bytes).bind shebang

/-- The interpreter of the script at a path. -/
def interpAt (path : CStr) : Option CStr := (lineAt fs path).map fun line => take magicSize (interpOf line)

/-- Along the interpreters, the path after `k` scripts, if there are so many. -/
def pathAt (path : CStr) (k : Nat) : Option CStr :=
  (fun p : Option CStr => p.bind (interpAt fs))^[k] (some (take magicSize path))

/-- The arguments there. -/
def argvAt (path : CStr) (argv : List CStr) : Nat → List CStr
  | 0 => argv
  | k + 1 => ((pathAt fs path k).bind fun p =>
      (lineAt fs p).map fun line => newArgv (mem k) line p (argvAt path argv k)).getD []

/-- **No path is met twice**, and the stack holds a call for each; no copy of two strings or more fails at a script. -/
structure NoLoop (levels : Nat) (path : CStr) (argv : List CStr) : Prop where
  apart : ∀ i j, i < j → pathAt fs path j ≠ none → pathAt fs path i ≠ pathAt fs path j
  short : pathAt fs path levels = none
  passes : ∀ k, pathAt fs path (k + 1) ≠ none → Passes (mem k) (argvAt fs mem path argv k)

/-- **A call within the stack finds no memory** to open its file or for the table of its list, and no copy of two strings or
more has failed before. -/
def OutOfMemory (levels : Nat) (path : CStr) (argv : List CStr) : Prop :=
  ∃ n < levels, pathAt fs path n ≠ none ∧ (∀ k < n, Passes (mem k) (argvAt fs mem path argv k)) ∧
    ((mem n).opened = false ∨ (mem n).newTable = false)

section Ends

variable {fs : List UInt8 → Option (List UInt8)} {load : List UInt8 → List CStr → List CStr → Option Int}
  {mem : Nat → Answers} {argv envp : List CStr} {line path p : CStr} {k n levels : Nat}

theorem take_take (path : CStr) : take magicSize (take magicSize path) = take magicSize path :=
  take_of_le (List.length_take_le _ _)

/-- A level without a script, or without memory, is the last one. -/
theorem ends_of_last (fuel : Nat) (h : (mem k).opened = false ∨ (mem k).newTable = false ∨ lineAt fs path = none) :
    ∃ r, doExecve fs load mem (fuel + 1) k path argv envp = some r ∧ r ≠ .fault := by
  cases ho : (mem k).opened with
  | false => exact ⟨.error (-enoent), by simp [doExecve, ho], by simp⟩
  | true =>
    cases hfs : fs (take magicSize path).bytes with
    | none => exact ⟨.error (-enoent), by simp [doExecve, ho, hfs], by simp⟩
    | some file =>
      cases hline : shebang file with
      | none =>
        have hprog := doExecve_program load mem fuel k argv envp hfs hline
        cases hr : (mem k).reopened with
        | false => exact ⟨_, hprog.1 (.inr hr), by simp⟩
        | true =>
          rw [hprog.2 ho hr]
          split
          · exact ⟨_, rfl, by simp⟩
          · exact ⟨_, rfl, by simp⟩
      | some line =>
        have ht : (mem k).newTable = false := by simpa [ho, lineAt, hfs, hline] using h
        exact ⟨_, (doExecve_line load mem fuel k argv envp hfs hline).2.1 ho ht, by simp⟩

theorem pathAt_succ (path : CStr) (k : Nat) : pathAt fs path (k + 1) = (pathAt fs path k).bind (interpAt fs) :=
  Function.iterate_succ_apply' _ _ _

/-- Behind the end there is nothing. -/
theorem pathAt_none (h : pathAt fs path n = none) : ∀ d, pathAt fs path (n + d) = none
  | 0 => h
  | d + 1 => by
    rw [← Nat.add_assoc, pathAt_succ, pathAt_none h d]
    rfl

theorem pathAt_ne_none (h : pathAt fs path n ≠ none) (hk : k ≤ n) : pathAt fs path k ≠ none := by
  intro hnone
  obtain ⟨d, rfl⟩ := Nat.exists_eq_add_of_le hk
  exact h (pathAt_none hnone d)

/-- From equal paths on everything repeats. -/
theorem pathAt_repeat {i j : Nat} (h : pathAt fs path i = pathAt fs path j) : ∀ d, pathAt fs path (i + d) = pathAt fs path (j + d)
  | 0 => h
  | d + 1 => by rw [← Nat.add_assoc, ← Nat.add_assoc, pathAt_succ, pathAt_succ, pathAt_repeat h d]

/-- **Where the interpreters come to an end, no path is met twice.** -/
theorem pathAt_apart (h : pathAt fs path n = none) {i j : Nat} (hij : i < j) (hj : pathAt fs path j ≠ none) :
    pathAt fs path i ≠ pathAt fs path j := by
  intro heq
  obtain ⟨d, rfl⟩ := Nat.exists_eq_add_of_lt hij
  -- a path that comes back after `d + 1` scripts comes back after every multiple of that
  have hround : ∀ q, pathAt fs path (i + q * (d + 1)) = pathAt fs path i := by
    intro q
    induction q with
    | zero => rw [Nat.zero_mul, Nat.add_zero]
    | succ q ih =>
      have hstep := pathAt_repeat heq (q * (d + 1))
      have harg : i + d + 1 + q * (d + 1) = i + (q + 1) * (d + 1) := by
        rw [Nat.add_mul]
        omega
      rw [harg, ih] at hstep
      exact hstep.symm
  have hpast : n ≤ i + n * (d + 1) := by
    have : n ≤ n * (d + 1) := Nat.le_mul_of_pos_right n (Nat.succ_pos d)
    omega
  refine pathAt_ne_none hj (Nat.le_of_lt hij) ?_
  rw [← hround n]
  obtain ⟨c, hc⟩ := Nat.exists_eq_add_of_le hpast
  rw [hc]
  exact pathAt_none h c

/-- Level `k` calls the next one. -/
structure GoesOn (fs : List UInt8 → Option (List UInt8)) (mem : Nat → Answers) (path : CStr) (argv : List CStr) (k : Nat) :
    Prop where
  opened : (mem k).opened = true
  newTable : (mem k).newTable = true
  next : pathAt fs path (k + 1) ≠ none
  passes : Passes (mem k) (argvAt fs mem path argv k)

/-- A path that is not the last is a script's. -/
theorem pathAt_line (h : pathAt fs path (k + 1) ≠ none) : ∃ p line, pathAt fs path k = some p ∧ lineAt fs p = some line := by
  obtain ⟨q, hq⟩ := Option.ne_none_iff_exists'.1 h
  rw [pathAt_succ] at hq
  obtain ⟨p, hp, hline⟩ := Option.bind_eq_some_iff.1 hq
  obtain ⟨line, hline, -⟩ := Option.map_eq_some_iff.1 hline
  exact ⟨p, line, hp, hline⟩

/-- **Through the levels that go on**, `do_execve` is what it is at the next one. -/
theorem doExecve_level (load : List UInt8 → List CStr → List CStr → Option Int) (envp : List CStr) (hk : k ≤ levels)
    (h : ∀ j < k, GoesOn fs mem path argv j) : ∃ q, pathAt fs path k = some (take magicSize q) ∧
    doExecve fs load mem levels 0 path argv envp = doExecve fs load mem (levels - k) k q (argvAt fs mem path argv k) envp := by
  induction k with
  | zero => exact ⟨path, rfl, rfl⟩
  | succ k ih =>
    obtain ⟨q, hq, heq⟩ := ih (Nat.le_of_lt hk) fun j hj => h j (Nat.lt_succ_of_lt hj)
    obtain ⟨ho, ht, hnext, hpass⟩ := h k (Nat.lt_succ_self k)
    obtain ⟨p, line, hp, hline⟩ := pathAt_line hnext
    rw [hq] at hp
    cases hp
    obtain ⟨file, hfs, hshe⟩ := Option.bind_eq_some_iff.1 hline
    rw [take_take] at hfs
    refine ⟨take magicSize (interpOf line), ?_, ?_⟩
    · rw [pathAt_succ, hq, Option.bind_some, interpAt, hline, take_take]
      rfl
    · have hfuel : levels - k = levels - (k + 1) + 1 := by omega
      have hargv : argvAt fs mem path argv (k + 1) = newArgv (mem k) line (take magicSize q) (argvAt fs mem path argv k) := by
        rw [argvAt, hq, Option.bind_some, hline]
        rfl
      rw [heq, hfuel, (doExecve_line load mem _ k _ envp hfs hshe).2.2.2 ho ht hpass, hargv]

/-- **The recursion ends** at the first level that does not go on, unless it reads a copy that failed. -/
theorem ends_iff_last : Ends fs load mem levels path argv envp ↔ ∃ n < levels, (∀ k < n, GoesOn fs mem path argv k) ∧
    ((mem n).opened = false ∨ (mem n).newTable = false ∨ pathAt fs path (n + 1) = none) := by
  constructor
  · rintro ⟨r, hr, hne⟩
    by_cases hall : ∀ k < levels, GoesOn fs mem path argv k
    · obtain ⟨q, -, heq⟩ := doExecve_level load envp (Nat.le_refl levels) hall
      rw [heq, Nat.sub_self] at hr
      cases hr
    -- the first level that does not go on
    push Not at hall
    classical
    obtain ⟨hlt, hstop⟩ := Nat.find_spec hall
    have hbefore : ∀ k < Nat.find hall, GoesOn fs mem path argv k := fun k hk => by
      by_contra hno
      exact Nat.find_min hall hk ⟨Nat.lt_trans hk hlt, hno⟩
    refine ⟨Nat.find hall, hlt, hbefore, ?_⟩
    generalize Nat.find hall = n at hlt hstop hbefore
    by_contra hgo
    simp only [not_or, Bool.not_eq_false] at hgo
    obtain ⟨ho, ht, hnext⟩ := hgo
    obtain ⟨q, hq, heq⟩ := doExecve_level load envp (Nat.le_of_lt hlt) hbefore
    obtain ⟨p, line, hp, hline⟩ := pathAt_line hnext
    rw [hq] at hp
    cases hp
    obtain ⟨file, hfs, hshe⟩ := Option.bind_eq_some_iff.1 hline
    rw [take_take] at hfs
    have hfuel : levels - n = levels - (n + 1) + 1 := by omega
    have hfault := (doExecve_line load mem (levels - (n + 1)) n (argvAt fs mem path argv n) envp hfs hshe).2.2.1 ho ht
      fun hpass => hstop ⟨ho, ht, hnext, hpass⟩
    rw [heq, hfuel, hfault] at hr
    cases hr
    exact hne rfl
  · rintro ⟨n, hlt, hbefore, hlast⟩
    obtain ⟨q, hq, heq⟩ := doExecve_level load envp (Nat.le_of_lt hlt) hbefore
    have hfuel : levels - n = levels - (n + 1) + 1 := by omega
    unfold Ends
    rw [heq, hfuel]
    refine ends_of_last _ (hlast.imp_right fun h => h.imp_right fun h => ?_)
    rw [pathAt_succ, hq, Option.bind_some, interpAt, Option.map_eq_none_iff, lineAt, take_take] at h
    exact h

/-- **A chain that comes to an end** within the stack meets no path twice. -/
theorem noLoop_of_end (hlt : n < levels) (hend : pathAt fs path (n + 1) = none)
    (hpass : ∀ k < n, Passes (mem k) (argvAt fs mem path argv k)) : NoLoop fs mem levels path argv := by
  refine ⟨fun i j hij hj => pathAt_apart hend hij hj, ?_, fun k hk => hpass k ?_⟩
  · obtain ⟨d, rfl⟩ := Nat.exists_eq_add_of_lt hlt
    have hsum : n + d + 1 = n + 1 + d := by omega
    rw [hsum]
    exact pathAt_none hend d
  · by_contra hkn
    exact pathAt_ne_none hk (by omega) hend

/-- Its last path. -/
theorem NoLoop.last (h : NoLoop fs mem levels path argv) : ∃ n < levels, pathAt fs path n ≠ none ∧
    (∀ k < n, Passes (mem k) (argvAt fs mem path argv k)) ∧ pathAt fs path (n + 1) = none := by
  classical
  have hex : ∃ n, pathAt fs path n = none := ⟨levels, h.short⟩
  obtain ⟨n, hn⟩ : ∃ n, Nat.find hex = n + 1 := Nat.exists_eq_succ_of_ne_zero fun h0 => by
    have hspec := Nat.find_spec hex
    rw [h0] at hspec
    exact Option.some_ne_none _ hspec
  have hmin : ∀ m < n + 1, pathAt fs path m ≠ none := fun m hm => Nat.find_min hex (hn ▸ hm)
  refine ⟨n, ?_, hmin n (Nat.lt_succ_self n), fun k hk => h.passes k (hmin (k + 1) (Nat.succ_lt_succ hk)),
    hn ▸ Nat.find_spec hex⟩
  by_contra hle
  exact hmin levels (by omega) h.short

/-- **The recursion ends** where a level stops it, or one before that does. -/
theorem ends_of_stop (h : ∃ n < levels, pathAt fs path n ≠ none ∧ (∀ k < n, Passes (mem k) (argvAt fs mem path argv k)) ∧
    ((mem n).opened = false ∨ (mem n).newTable = false ∨ pathAt fs path (n + 1) = none)) :
    Ends fs load mem levels path argv envp := by
  classical
  have hmin := fun m (hm : m < Nat.find h) => Nat.find_min h hm
  obtain ⟨hlt, hpath, hpass, hstop⟩ := Nat.find_spec h
  generalize Nat.find h = n at hmin hlt hpath hpass hstop
  refine ends_iff_last.2 ⟨n, hlt, fun k hk => ?_, hstop⟩
  have hgo : ¬((mem k).opened = false ∨ (mem k).newTable = false ∨ pathAt fs path (k + 1) = none) := fun hs =>
    hmin k hk ⟨Nat.lt_trans hk hlt, pathAt_ne_none hpath (Nat.le_of_lt hk), fun j hj => hpass j (Nat.lt_trans hj hk), hs⟩
  simp only [not_or, Bool.not_eq_false] at hgo
  exact ⟨hgo.1, hgo.2.1, hgo.2.2, hpass k hk⟩

end Ends

/-- **The recursion ends exactly when no path is met twice within the calls the stack holds**, or one of them finds no memory. -/
theorem doExecve_ends_iff (levels : Nat) (path : CStr) (argv envp : List CStr) :
    Ends fs load mem levels path argv envp ↔
      NoLoop fs mem levels path argv ∨ OutOfMemory fs mem levels path argv := by
  constructor
  · intro h
    obtain ⟨n, hlt, hbefore, hlast⟩ := ends_iff_last.1 h
    have hpass : ∀ k < n, Passes (mem k) (argvAt fs mem path argv k) := fun k hk => (hbefore k hk).passes
    have hpath : pathAt fs path n ≠ none := by
      cases n with
      | zero => exact Option.some_ne_none _
      | succ n => exact (hbefore n (Nat.lt_succ_self n)).next
    rcases hlast with hmem | hmem | hend
    · exact .inr ⟨n, hlt, hpath, hpass, .inl hmem⟩
    · exact .inr ⟨n, hlt, hpath, hpass, .inr hmem⟩
    · exact .inl (noLoop_of_end hlt hend hpass)
  · rintro (h | ⟨n, hlt, hpath, hpass, hmem⟩)
    · obtain ⟨n, hlt, hpath, hpass, hend⟩ := h.last
      exact ends_of_stop ⟨n, hlt, hpath, hpass, .inr (.inr hend)⟩
    · exact ends_of_stop ⟨n, hlt, hpath, hpass, hmem.imp_right .inl⟩

/-! ## A script that is its own interpreter, and one with an argument -/

def plenty : Answers := ⟨true, true, true, fun _ => true, true, fun _ => true, true, true, true, true, fun _ => true⟩

/-- `/s`, and `/b`. -/
def sPath : CStr := ⟨[0x2F, 0x73], by decide⟩
def bPath : CStr := ⟨[0x2F, 0x62], by decide⟩

/-- `/s` is `#!/s`. -/
def selfFs (path : List UInt8) : Option (List UInt8) := if path = sPath.bytes then some [0x23, 0x21, 0x2F, 0x73, 0x0A] else none

/-- However many calls the stack holds, the last one overruns it. -/
theorem not_ends : ¬∃ levels, Ends selfFs starts (fun _ => plenty) levels sPath [sPath] [] := by
  have hrun : ∀ (levels k : Nat) (argv : List CStr),
      doExecve selfFs starts (fun _ => plenty) levels k sPath argv [] = none := by
    intro levels
    induction levels with
    | zero => exact fun k argv => rfl
    | succ levels ih =>
      intro k argv
      have hline : shebang [0x23, 0x21, 0x2F, 0x73, 0x0A] = some sPath := rfl
      have hline := @doExecve_line selfFs sPath _ starts (fun _ => plenty) levels k argv [] sPath rfl hline
      have hnext := hline.2.2.2 rfl rfl (.inl ⟨rfl, fun _ _ _ => rfl⟩)
      exact hnext.trans (ih _ _)
  rintro ⟨levels, r, hr, -⟩
  rw [hrun] at hr
  cases hr

/-- `/s` is `#!/b x`, and `/b` is no script. -/
def twoFs (path : List UInt8) : Option (List UInt8) :=
  if path = sPath.bytes then some [0x23, 0x21, 0x2F, 0x62, 0x20, 0x78, 0x0A] else if path = bPath.bytes then some [0x7F] else none

/-- The line `/b x`. -/
def twoLine : CStr := ⟨[0x2F, 0x62, 0x20, 0x78], by decide⟩

theorem chain_twoFs : Chain twoFs (take magicSize sPath) [(sPath, twoLine)] [0x7F] :=
  @Chain.script twoFs sPath [0x23, 0x21, 0x2F, 0x62, 0x20, 0x78, 0x0A] _ _ rfl rfl (by decide)
    (@Chain.program twoFs bPath _ rfl (by unfold IsScript; decide))

theorem doExecve_exact_iff_two : Exact (chainArgs [sPath, bPath] [(sPath, twoLine)]) [bPath]
    (doExecve twoFs starts (fun _ => plenty) 2 0 sPath [sPath, bPath] [bPath]) := by
  refine (doExecve_exact_iff twoFs (fun _ => plenty) chain_twoFs (by decide) [sPath, bPath] [bPath]).2 (.inr ?_) starts
  have hfound : ∀ i n, Found (fun _ => true) i n := fun _ _ _ _ _ => rfl
  exact ⟨.inl ⟨rfl, hfound _ _⟩, ⟨rfl, fun _ => rfl, rfl, hfound _ _⟩, .inl ⟨rfl, hfound _ _⟩, .inl ⟨rfl, hfound _ _⟩⟩

/-- With no memory for its argument, `/b` runs with `/s` in its place. -/
theorem not_exact : Chain twoFs (take magicSize sPath) [(sPath, twoLine)] [0x7F] ∧
    doExecve twoFs starts (fun _ => { plenty with iarg := false }) 2 0 sPath [sPath] [] = some (.started [bPath, sPath] []) ∧
    ¬ Exact (chainArgs [sPath] [(sPath, twoLine)]) []
      (doExecve twoFs starts (fun _ => { plenty with iarg := false }) 2 0 sPath [sPath] []) := by
  have hrun : doExecve twoFs starts (fun _ => { plenty with iarg := false }) 2 0 sPath [sPath] [] =
      some (.started [bPath, sPath] []) := rfl
  refine ⟨chain_twoFs, hrun, ?_⟩
  rw [hrun]
  rintro (h | ⟨e, h⟩)
  · cases h
  · cases h

end Script
end Pico
