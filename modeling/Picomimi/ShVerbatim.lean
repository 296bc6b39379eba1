import Mathlib.Data.List.TakeDrop
import Mathlib.Data.List.TakeWhile
import Picomimi.ShQuote
/-!
# ShVerbatim — the strings that survive single quotes

The line is expanded as a whole before it is split into words, and then each argument once more, so the quotes protect a
string from the first pass alone.  Every later pass writes at most what it reads, and as much only where it copies
(`expandLoop_loss`, `tokenizeFrom_loss`): a string that comes through is one that none of them changes.
-/
namespace Pico
namespace Sh

open Lib

variable {fuel room nc n d d' : Nat} {c : Char} {s t u p q : Text} {cur : Cmd} {cmds : List Cmd}

/-- A world where sub-shells print nothing and every command succeeds. -/
def quiet : World Unit where
  capture _ _ := ((), none)
  builtin _ _ _ := none
  forks _ _ := true
  sees _ _ := ()
  opens _ _ := true
  wait _ _ := ((), 0)
  flow _ := Act.never

/-- A shell without variables and arguments. -/
def bare : State Unit :=
  { env := fun _ => none, exit := 0, argv0 := ['s'], pos := [], pid := 1, stop := false, outside := () }

/-! ## What an expansion loses -/

/-- What a turn of the loop does to the text `c :: t` in the bare shell: less is left, or `c` is copied. -/
def Loss (c : Char) (t : Text) (r : List Event × Option ((Text × Text) × State Unit)) : Prop :=
  ∃ ev w rest, r = (ev, some ((w, rest), bare)) ∧
    (w.length + rest.length ≤ t.length ∨ ev = [] ∧ w = [c] ∧ rest = t ∧ c ≠ backtick ∧ (c = '$' → isBare t = true))

theorem expandDollar_loss (t : Text) : Loss '$' t (expandDollar quiet t bare) := by
  cases t with
  | nil => exact ⟨[], ['$'], [], rfl, Or.inr ⟨rfl, rfl, rfl, by decide, fun _ => rfl⟩⟩
  | cons d t =>
    -- every turn but the last reads the `$` and `d`, and writes one character at most
    have hparens := readParens_length (maxLine - 1) 1 t
    have hbrace := readUntil_length '}' 255 t
    have hdrop : (t.dropWhile isNameChar).length ≤ t.length := (List.dropWhile_suffix _).length_le
    have hshort : ∀ w rest : Text, w.length ≤ 1 → rest.length ≤ t.length → w.length + rest.length ≤ (d :: t).length := by
      intro w rest hw hrest
      rw [List.length_cons]
      omega
    rw [expandDollar]
    split
    · exact ⟨_, [], _, rfl, Or.inl (hshort _ _ (Nat.zero_le 1) hparens)⟩
    split
    · exact ⟨[], [], _, rfl, Or.inl (hshort _ _ (Nat.zero_le 1) (Nat.le_trans (Nat.le_add_left ..) hbrace))⟩
    split
    · exact ⟨[], ['0'], t, rfl, Or.inl (hshort _ _ (Nat.le_refl 1) (Nat.le_refl _))⟩
    split
    · exact ⟨[], ['1'], t, rfl, Or.inl (hshort _ _ (Nat.le_refl 1) (Nat.le_refl _))⟩
    split
    · exact ⟨[], ['0'], t, rfl, Or.inl (hshort _ _ (Nat.le_refl 1) (Nat.le_refl _))⟩
    split
    · exact ⟨[], ['s'], t, rfl, Or.inl (hshort _ _ (Nat.le_refl 1) (Nat.le_refl _))⟩
    split
    · exact ⟨[], [], t, rfl, Or.inl (hshort _ _ (Nat.zero_le 1) (Nat.le_refl _))⟩
    split
    · exact ⟨[], [], _, rfl, Or.inl (hshort _ _ (Nat.zero_le 1) hdrop)⟩
    · refine ⟨[], ['$'], d :: t, rfl, Or.inr ⟨rfl, rfl, rfl, by decide, fun _ => ?_⟩⟩
      simp_all [isBare]

theorem expandStep_loss (c : Char) (t : Text) : Loss c t (expandStep quiet c t bare) := by
  rw [expandStep]
  split
  · rename_i h
    obtain ⟨d, t, rfl⟩ := List.exists_cons_of_ne_nil h.2
    exact ⟨[], [d], t, rfl, Or.inl (by simp [Nat.add_comm])⟩
  split
  · exact ⟨[], _, _, rfl, Or.inl (readUntil_length _ _ _)⟩
  split
  · have hback := readUntil_length backtick (maxLine - 1) t
    exact ⟨_, [], _, rfl, Or.inl (by rw [List.length_nil, Nat.zero_add]; exact Nat.le_trans (Nat.le_add_left ..) hback)⟩
  split
  · rename_i h
    subst h
    exact expandDollar_loss t
  · rename_i _ _ hback hdollar
    exact ⟨[], [c], t, rfl, Or.inr ⟨rfl, rfl, rfl, hback, fun h => absurd h hdollar⟩⟩

/-- No backtick, and every `$` a bare one. -/
def unexpanded : Text → Bool
  | [] => true
  | c :: t => c ≠ backtick && (c ≠ '$' || isBare t) && unexpanded t

/-- **An expansion writes at most what it reads**, and as much only when it copies. -/
theorem expandLoop_loss : ∀ (fuel room : Nat) (t : Text), ∃ ev out, expandLoop quiet fuel room t bare = (ev, some (out, bare)) ∧
    out.length ≤ t.length ∧ (out.length = t.length → ev = [] ∧ out = t ∧ unexpanded t = true)
  | 0, _, t => by
    refine ⟨[], [], rfl, Nat.zero_le _, fun h => ?_⟩
    obtain rfl := List.eq_nil_of_length_eq_zero h.symm
    exact ⟨rfl, rfl, rfl⟩
  | fuel + 1, room, [] => ⟨[], [], rfl, Nat.le_refl _, fun _ => ⟨rfl, rfl, rfl⟩⟩
  | fuel + 1, room, c :: t => by
    by_cases hroom : room = 0
    · rw [expandLoop, if_pos hroom]
      exact ⟨[], [], rfl, Nat.zero_le _, fun h => by cases h⟩
    obtain ⟨ev, w, rest, hstep, hloss⟩ := expandStep_loss c t
    obtain ⟨ev', out, hloop, hle, heq⟩ := expandLoop_loss fuel (room - w.length) rest
    have hrun : expandLoop quiet (fuel + 1) room (c :: t) bare = (ev ++ ev', some (w.take room ++ out, bare)) := by
      rw [expandLoop, if_neg hroom, Act.bind_some hstep]
      dsimp only
      rw [Act.bind_some hloop, Act.pure_apply, List.append_nil]
    have htake := List.length_take_le' room w
    refine ⟨_, _, hrun, ?_, fun hlen => ?_⟩
    · simp only [List.length_append, List.length_cons]
      rcases hloss with hloss | ⟨-, rfl, rfl, -⟩
      · omega
      · simp only [List.length_singleton] at htake
        omega
    · simp only [List.length_append, List.length_cons] at hlen
      rcases hloss with hloss | ⟨rfl, rfl, rfl, hback, hdollar⟩
      · omega
      simp only [List.length_singleton] at htake
      obtain ⟨rfl, rfl, hun⟩ := heq (by omega)
      have hw : [c].take room = [c] := List.take_of_length_le (by simp only [List.length_singleton]; omega)
      refine ⟨rfl, by rw [hw]; rfl, ?_⟩
      by_cases hd : c = '$' <;> simp_all [unexpanded]

/-! ## What the tokeniser loses -/

theorem unescape_length (n : Nat) (c : Char) : (unescape n c).length ≤ 2 := by
  unfold unescape
  repeat' split
  all_goals simp

theorem readWord_length (m : Mode) (n : Nat) (t : Text) : (readWord m n t).1.length + (readWord m n t).2.length ≤ t.length := by
  fun_induction readWord m n t with
  | case1 => exact Nat.le_refl _
  | case2 => simp
  | case3 => split <;> simp
  | case4 => split <;> simp
  | case9 n d t tok rest heq _ ih =>
    rw [heq] at ih
    have := unescape_length n d
    simp only [List.length_append, List.length_cons] at ih ⊢
    omega
  | _ => simp_all only [push, List.length_cons, List.length_nil]; omega

/-- Characters of a word, and a backslash at most behind them. -/
def wordLike : Text → Bool
  | [] => true
  | c :: t => (isTok c || c = '\\' && t = []) && wordLike t

/-- **A word is no longer than what is read for it**, and as long only when it is copied. -/
theorem readWord_loss : ∀ {n : Nat} {t : Text},
    (readWord .plain n t).1.length + (readWord .plain n t).2.length = t.length →
      (readWord .plain n t).1 ++ (readWord .plain n t).2 = t ∧ wordLike (readWord .plain n t).1 = true
  | 0, [], _ => ⟨rfl, rfl⟩
  | _ + 1, [], _ => ⟨rfl, rfl⟩
  | 0, _ :: _, _ => ⟨rfl, rfl⟩
  | n + 1, c :: t, h => by
    have hsingle := readWord_length .single (n + 1) t
    have hdouble := readWord_length .double (n + 1) t
    rw [readWord_plain] at h ⊢
    rw [List.length_cons] at h
    by_cases h1 : c = '\''
    · rw [if_pos h1] at h
      omega
    by_cases h2 : c = '"'
    · rw [if_neg h1, if_pos h2] at h
      omega
    by_cases h3 : c = '\\'
    · rw [if_neg h1, if_neg h2, if_pos h3] at h ⊢
      cases t with
      | nil =>
        subst h3
        cases n <;> exact ⟨rfl, rfl⟩
      | cons d t =>
        have := readWord_length .plain n t
        simp only [push, List.length_cons] at h
        omega
    by_cases h4 : endsWord c = true
    · rw [if_neg h1, if_neg h2, if_neg h3, if_pos h4]
      exact ⟨rfl, rfl⟩
    · rw [if_neg h1, if_neg h2, if_neg h3, if_neg h4] at h ⊢
      simp only [push, List.length_cons] at h
      obtain ⟨happ, hword⟩ := readWord_loss (n := n) (t := t) (by omega)
      have htok : isTok c = true := by simp [isTok, h1, h2, h3, h4]
      exact ⟨congrArg (c :: ·) happ, by simp [push, wordLike, htok, hword]⟩

theorem readFile_length (t : Text) : (readFile t).2.length ≤ t.length := by
  have hdrop : (t.dropWhile (· = ' ')).length ≤ t.length := (List.dropWhile_suffix _).length_le
  rw [readFile, List.span_eq_takeWhile_dropWhile]
  exact Nat.le_trans (List.dropWhile_suffix _).length_le hdrop

/-- The command of a turn, and the text it goes on with. -/
def Turn.parts : Turn → Cmd × Text
  | .same c rest => (c, rest)
  | .next c rest => (c, rest)

/-- **A turn of the tokeniser** reads a character at least; it leaves the arguments alone, or adds the word it reads. -/
theorem tokenStep_loss {room : Bool} {r : Turn} (h : tokenStep room cur c t = some r) :
    r.parts.2.length ≤ t.length ∧
      (r.parts.1.argv = cur.argv ∨ ∃ tok rest, r = .same (addArg cur tok) rest ∧
        readWord .plain (maxLine - 1) (c :: t) = (tok, rest)) := by
  have hdrop : ∀ k, (t.drop k).length ≤ t.length := fun k => by simp
  have hfile : ∀ u : Text, u.length ≤ t.length → (readFile u).2.length ≤ t.length := fun u hu =>
    Nat.le_trans (readFile_length u) hu
  have hconnect : ∀ (room : Bool) (k : Connector) (u : Text), u.length ≤ t.length → some (connect room cur k u) = some r →
      r.parts.2.length ≤ t.length ∧ r.parts.1.argv = cur.argv := by
    intro room k u hu heq
    obtain rfl := Option.some.inj heq
    cases room <;> exact ⟨hu, rfl⟩
  have hsame : ∀ (cur' : Cmd) (u : Text), cur'.argv = cur.argv → u.length ≤ t.length → some (Turn.same cur' u) = some r →
      r.parts.2.length ≤ t.length ∧ r.parts.1.argv = cur.argv := by
    intro cur' u hargv hu heq
    obtain rfl := Option.some.inj heq
    exact ⟨hu, hargv⟩
  have hkeep : ∀ {P : Prop}, r.parts.2.length ≤ t.length ∧ r.parts.1.argv = cur.argv →
      r.parts.2.length ≤ t.length ∧ (r.parts.1.argv = cur.argv ∨ P) := fun h => ⟨h.1, Or.inl h.2⟩
  rw [tokenStep] at h
  by_cases h1 : c = '|' ∧ t.head? = some '|'
  · rw [if_pos h1] at h
    exact hkeep (hconnect _ _ _ (hdrop 1) h)
  rw [if_neg h1] at h
  by_cases h2 : c = '&' ∧ t.head? = some '&'
  · rw [if_pos h2] at h
    exact hkeep (hconnect _ _ _ (hdrop 1) h)
  rw [if_neg h2] at h
  by_cases h3 : c = '|'
  · rw [if_pos h3] at h
    exact hkeep (hconnect _ _ _ (Nat.le_refl _) h)
  rw [if_neg h3] at h
  by_cases h4 : c = '&'
  · rw [if_pos h4] at h
    exact hkeep (hsame { cur with background := true } t rfl (Nat.le_refl _) h)
  rw [if_neg h4] at h
  by_cases h5 : c = ';'
  · rw [if_pos h5] at h
    exact hkeep (hconnect _ _ _ (Nat.le_refl _) h)
  rw [if_neg h5] at h
  by_cases h6 : c = '2' ∧ t.take 3 = ['>', '&', '1']
  · rw [if_pos h6] at h
    exact hkeep (hsame { cur with err2out := true } (t.drop 3) rfl (hdrop 3) h)
  rw [if_neg h6] at h
  by_cases h7 : c = '2' ∧ t.head? = some '>'
  · rw [if_pos h7] at h
    exact hkeep (hsame { cur with rerr := some (readFile (t.drop 1)).1 } _ rfl (hfile _ (hdrop 1)) h)
  rw [if_neg h7] at h
  by_cases h8 : c = '>' ∧ t.head? = some '>'
  · rw [if_pos h8] at h
    exact hkeep (hsame { cur with rapp := some (readFile (t.drop 1)).1 } _ rfl (hfile _ (hdrop 1)) h)
  rw [if_neg h8] at h
  by_cases h9 : c = '>'
  · rw [if_pos h9] at h
    exact hkeep (hsame { cur with rout := some (readFile t).1 } _ rfl (hfile _ (Nat.le_refl _)) h)
  rw [if_neg h9] at h
  by_cases h10 : c = '<'
  · rw [if_pos h10] at h
    exact hkeep (hsame { cur with rin := some (readFile t).1 } _ rfl (hfile _ (Nat.le_refl _)) h)
  rw [if_neg h10] at h
  have hread := readWord_length .plain (maxLine - 1) (c :: t)
  rcases hword : readWord .plain (maxLine - 1) (c :: t) with ⟨tok, rest⟩
  rw [hword] at h hread
  simp only [List.length_cons] at hread
  by_cases hlen : rest.length = t.length + 1
  · simp only [if_pos hlen] at h
    cases h
  · simp only [if_neg hlen] at h
    obtain rfl := Option.some.inj h
    exact ⟨by change rest.length ≤ t.length; omega, Or.inr ⟨tok, rest, rfl, rfl⟩⟩

/-- **The arguments of the first command** are no longer than the text they are made of; a single one is as long only when
it is all of the text. -/
structure Kept (new : List Text) (p : Text) : Prop where
  le : new.flatten.length ≤ p.length
  ne : [] ∉ new
  whole : ∀ a, new = [a] → a.length = p.length → a = p ∧ wordLike p = true

theorem Kept.nil : Kept [] p := ⟨Nat.zero_le _, List.not_mem_nil, fun a ha => by cases ha⟩

theorem Kept.of_lt {new : List Text} (hne : [] ∉ new) (h : new.flatten.length < p.length) : Kept new p := by
  refine ⟨Nat.le_of_lt h, hne, fun a ha hlen => ?_⟩
  rw [ha, List.flatten_singleton] at h
  omega

theorem tokenizeFrom_loss : ∀ {fuel nc : Nat} {cur : Cmd} {p : Text} {cmds : List Cmd}, tokenizeFrom fuel nc cur p = some cmds →
    ∃ d l new, cmds = d :: l ∧ d.argv = cur.argv ++ new ∧ Kept new p := by
  intro fuel
  induction fuel with
  | zero =>
    intro nc cur p cmds h
    rw [tokenizeFrom] at h
    split at h
    · exact ⟨cur, [], [], (Option.some.inj h).symm, (List.append_nil _).symm, Kept.nil⟩
    · cases h
  | succ fuel ih =>
    intro nc cur p cmds h
    have hdrop : (p.dropWhile isBlank).length ≤ p.length := (List.dropWhile_suffix _).length_le
    rw [tokenizeFrom] at h
    split at h
    · exact ⟨cur, [], [], (Option.some.inj h).symm, (List.append_nil _).symm, Kept.nil⟩
    rename_i c t hp
    rw [hp, List.length_cons] at hdrop
    rcases hstep : tokenStep (decide (nc + 1 < maxCmds)) cur c t with _ | r
    · simp only [hstep] at h
      cases h
    obtain ⟨hrest, hturn⟩ := tokenStep_loss hstep
    simp only [hstep] at h
    cases r with
    | next cur' rest =>
      obtain ⟨l, -, rfl⟩ := Option.map_eq_some_iff.1 h
      rcases hturn with hargv | ⟨_, _, heq, -⟩
      · exact ⟨cur', l, [], rfl, by rw [List.append_nil]; exact hargv, Kept.nil⟩
      · cases heq
    | same cur' rest =>
      obtain ⟨d, l, new, rfl, hargv, hkept⟩ := ih h
      have hrest' : rest.length ≤ t.length := hrest
      rcases hturn with hsame | ⟨tok, rest', heq, hread⟩
      · exact ⟨d, l, new, rfl, hargv.trans (congrArg (· ++ new) hsame), Kept.of_lt hkept.ne (Nat.lt_of_le_of_lt hkept.le (by omega))⟩
      cases heq
      have hlen := readWord_length .plain (maxLine - 1) (c :: t)
      have hloss := readWord_loss (n := maxLine - 1) (t := c :: t)
      rw [hread] at hlen hloss
      simp only [List.length_cons] at hlen hloss
      by_cases hadd : tok ≠ [] ∧ cur.argv.length < maxArgs - 1
      · rw [addArg, if_pos hadd] at hargv
        refine ⟨d, l, tok :: new, rfl, by simpa using hargv, ?_, ?_, fun a ha hal => ?_⟩
        · simp only [List.flatten_cons, List.length_append]
          have := hkept.le
          omega
        · exact fun hmem => (List.mem_cons.1 hmem).elim (fun h => hadd.1 h.symm) hkept.ne
        · obtain ⟨rfl, rfl⟩ : tok = a ∧ new = [] := by simpa using ha
          have hrest0 : rest.length = 0 := by omega
          obtain ⟨happ, hword⟩ := hloss (by omega)
          obtain rfl := List.eq_nil_of_length_eq_zero hrest0
          rw [List.append_nil] at happ
          have hpt : p.dropWhile isBlank = p :=
            (List.dropWhile_suffix _).eq_of_length (by rw [hp, ← happ]; exact hal)
          rw [← hpt, hp]
          exact ⟨happ, happ ▸ hword⟩
      · rw [addArg, if_neg hadd] at hargv
        exact ⟨d, l, new, rfl, hargv, Kept.of_lt hkept.ne (Nat.lt_of_le_of_lt hkept.le (by omega))⟩

theorem tokenize_loss (hq : q = [] ∧ p = [] ∨ q = ' ' :: p) (h : tokenize ('w' :: q) = some cmds) :
    ∃ d l new, cmds = d :: l ∧ d.argv = ['w'] :: new ∧ Kept new p := by
  have hread : readWord .plain (maxLine - 1) ('w' :: q) = (['w'], q) := by
    refine readWord_append (t := ['w']) (List.forall_mem_singleton.2 rfl) (fun d r heq => ?_) (by decide)
    rcases hq with ⟨rfl, -⟩ | rfl
    · cases heq
    · cases heq
      rfl
  have hgt : q.head? ≠ some '>' := by
    rcases hq with ⟨rfl, -⟩ | rfl
    · exact fun heq => by cases heq
    · exact fun heq => absurd (Option.some.inj heq) (by decide)
  rw [tokenize, List.length_cons, tokenizeFrom_word rfl hgt hread (Nat.lt_succ_self _)] at h
  obtain ⟨l, hl, hmap⟩ := Option.map_eq_some_iff.1 h
  have hp : tokenizeFrom q.length 0 (addArg {} ['w']) p = some l := by
    rcases hq with ⟨rfl, rfl⟩ | rfl
    · exact hl
    · rwa [tokenizeFrom_blank rfl] at hl
  obtain ⟨d, l, new, rfl, hargv, hkept⟩ := tokenizeFrom_loss hp
  have hargv' : d.argv = ['w'] :: new := hargv
  refine ⟨d, l, new, ?_, hargv', hkept⟩
  cases l with
  | nil => rw [← hmap]; simp [hargv']
  | cons e l => exact hmap.symm

/-! ## What is started first -/

abbrev quietExpand : Text → Run Unit Text := shellExpand quiet

theorem quietExpand_loss (t : Text) : ∃ ev out, quietExpand t bare = (ev, some (out, bare)) ∧
    out.length ≤ t.length ∧ (out.length = t.length → ev = [] ∧ out = t ∧ unexpanded t = true) := expandLoop_loss _ _ _

theorem expandArgs_quiet : ∀ l : List Text, ∃ ev l', expandArgs quietExpand l bare = (ev, some (l', bare)) ∧
    List.Forall₂ (fun a b => ∃ ev, quietExpand a bare = (ev, some (b, bare))) l l'
  | [] => ⟨[], [], rfl, .nil⟩
  | a :: l => by
    obtain ⟨ev, out, hout, -⟩ := quietExpand_loss a
    obtain ⟨ev', l', hl', hall⟩ := expandArgs_quiet l
    refine ⟨ev ++ ev', out :: l', ?_, .cons ⟨ev, hout⟩ hall⟩
    rw [expandArgs, Act.bind_some hout, Act.bind_some hl', Act.pure_apply, List.append_nil]

/-- A command of the name `w` starts a program: what it is started with comes of the arguments. -/
theorem child_quiet {d : Cmd} {new : List Text} (hd : d.argv = ['w'] :: new) : ∃ ev l',
    (child quiet quietExpand bare 0 d).1 = ev ++ [.invoke (['w'] :: l')] ∧
    List.Forall₂ (fun a b => ∃ ev, quietExpand a bare = (ev, some (b, bare))) (new.take (maxArgs - 2)) l' := by
  obtain ⟨ev, l', hl', hall⟩ := expandArgs_quiet (new.take (maxArgs - 2))
  have hw : quietExpand ['w'] bare = ([], some (['w'], bare)) := by
    rw [quietExpand, shellExpand_inert (by decide) (by decide)]
    rfl
  have hargv : argvOf quietExpand d bare = (ev, some (['w'] :: l', bare)) := by
    rw [argvOf, hd]
    change expandArgs quietExpand (['w'] :: new.take (maxArgs - 2)) bare = _
    rw [expandArgs, Act.bind_some hw, Act.bind_some hl', Act.pure_apply, List.append_nil, List.nil_append]
  have hfiles : d.files.all (quiet.opens (quiet.sees bare.outside 0)) = true := by
    simp [quiet]
  refine ⟨ev, l', ?_, hall⟩
  have hbare : ({ bare with outside := quiet.sees bare.outside 0 } : State Unit) = bare := rfl
  simp only [child, hfiles, if_true, hbare, hargv]

theorem forkAndWait_quiet (d : Cmd) (l : List Cmd) (background : Bool) :
    (child quiet quietExpand bare 0 d).1 <+: (forkAndWait quiet quietExpand (d :: l) background bare).1 := by
  have hfork : (forkAll quiet quietExpand bare 0 (d :: l)).1 =
      (child quiet quietExpand bare 0 d).1 ++ (forkAll quiet quietExpand bare 1 l).1 := rfl
  rw [forkAndWait_events, hfork]
  exact List.prefix_append _ _

theorem splitPipe_head (d : Cmd) (l : List Cmd) : ∃ l', (splitPipe d l).1 ++ [(splitPipe d l).2.1] = d :: l' := by
  cases l with
  | nil => exact ⟨[], rfl⟩
  | cons e l =>
    by_cases hc : d.connector = .pipe
    · exact ⟨(splitPipe e l).1 ++ [(splitPipe e l).2.1], by simp only [splitPipe, if_pos hc, List.cons_append]⟩
    · exact ⟨[], by simp only [splitPipe, if_neg hc, List.nil_append]⟩

/-- **The child of the first command comes first.** -/
theorem execChain_quiet {d : Cmd} {l : List Cmd} {new : List Text} {result : Int} (hd : d.argv = ['w'] :: new) :
    (child quiet quietExpand bare 0 d).1 <+: (execChain quiet quietExpand (n + 1) result (d :: l) bare).1 := by
  obtain ⟨l', hl'⟩ := splitPipe_head d l
  have hpipe : (child quiet quietExpand bare 0 d).1 <+: (execPipeline quiet quietExpand (d :: l') bare).1 := by
    cases l' with
    | nil =>
      have hw : quietExpand ['w'] = pure ['w'] := shellExpand_inert (by decide) (by decide)
      rw [execPipeline, execCmd, hd]
      simp only [hw, pure_bind]
      exact forkAndWait_quiet d [] d.background
    | cons e l' => exact forkAndWait_quiet d (e :: l') false
  rw [← hl'] at hpipe
  rw [execChain]
  exact hpipe.trans (Act.prefix_bind _ _ _)

/-- A command that is started with one argument has one, and it expands to that. -/
theorem child_arg {d : Cmd} {new : List Text} (hd : d.argv = ['w'] :: new)
    (h : (child quiet quietExpand bare 0 d).1 <+: [.invoke [['w'], s]]) :
    ∃ a, new = [a] ∧ ∃ ev, quietExpand a bare = (ev, some (s, bare)) := by
  obtain ⟨ev, l', hchild, hall⟩ := child_quiet hd
  rw [hchild] at h
  -- the events of the child are the one event there is
  obtain ⟨rfl, rfl⟩ : ev = [] ∧ l' = [s] := by
    cases ev with
    | nil =>
      obtain ⟨rest, hrest⟩ := h
      obtain ⟨hl, -⟩ : l' = [s] ∧ rest = [] := by simpa using hrest
      exact ⟨rfl, hl⟩
    | cons e ev =>
      have := h.length_le
      simp at this
  cases new with
  | nil => cases hall
  | cons a new =>
    cases new with
    | cons b new =>
      cases hall with
      | cons _ hrest => cases hrest
    | nil =>
      cases hall with
      | cons ha _ => exact ⟨a, rfl, ha⟩

/-- **What comes through**: the text behind the name is all of it a word that expands to itself. -/
theorem execSimple_loss (hq : q = [] ∧ p = [] ∨ q = ' ' :: p) (hp : p.length ≤ s.length)
    (hne : execSimple quiet ('w' :: q) ≠ Act.never)
    (h : (execSimple quiet ('w' :: q) bare).1 <+: [.invoke [['w'], s]]) :
    s ≠ [] ∧ wordLike s = true ∧ unexpanded s = true := by
  have hblank : ('w' :: q).dropWhile isBlank = 'w' :: q := List.dropWhile_cons_of_neg (by decide)
  have hhash : ¬('w' = '#') := by decide
  rw [execSimple, hblank] at hne h
  simp only [if_neg hhash] at hne h
  rcases htok : tokenize ('w' :: q) with _ | cmds
  · rw [htok] at hne
    exact absurd rfl hne
  obtain ⟨d, l, new, rfl, hargv, hkept⟩ := tokenize_loss hq htok
  rw [htok] at h
  obtain ⟨a, ha, ev, hout⟩ := child_arg hargv ((execChain_quiet (n := l.length) (l := l) hargv).trans h)
  obtain ⟨ev', out, hout', hle, heq⟩ := quietExpand_loss a
  rw [hout] at hout'
  cases hout'
  have hal : a.length ≤ p.length := by
    have := hkept.le
    rwa [ha, List.flatten_singleton] at this
  obtain ⟨rfl, hword⟩ := hkept.whole a ha (by omega)
  obtain ⟨-, rfl, hun⟩ := heq (by omega)
  exact ⟨fun hnil => hkept.ne (by rw [ha, hnil]; exact List.mem_cons_self), hword, hun⟩

/-! ## The lines that tell -/

def nameW : Name := ⟨['w'], rfl⟩

/-- `w 's'` -/
def alone : Line := ⟨⟨⟨nameW, [.quoted]⟩, []⟩, []⟩

/-- `w 's' || w` -/
def chained : Line := ⟨⟨⟨nameW, [.quoted]⟩, [(⟨.or, by decide⟩, ⟨nameW, []⟩)]⟩, []⟩

theorem alone_text : alone.text s = 'w' :: ' ' :: '\'' :: (s ++ ['\'']) := by
  simp [alone, Line.text, renderSegs, Segment.render, renderFrom, Command.render, Arg.text, nameW]

theorem alone_fits (h : s.length + 10 ≤ maxLine) : alone.Fits s where
  line := by
    rw [alone_text]
    simp only [List.length_cons, List.length_append, List.length_nil]
    omega
  cmds := by
    intro seg hseg
    rw [List.mem_singleton.1 hseg]
    decide
  args := by
    intro seg hseg c hc
    rw [List.mem_singleton.1 hseg] at hc
    rw [List.mem_singleton.1 hc]
    decide

theorem chained_text : chained.text s = 'w' :: ' ' :: '\'' :: (s ++ ['\'', ' ', '|', '|', ' ', 'w']) := by
  simp [chained, Line.text, renderSegs, Segment.render, renderFrom, Command.render, Arg.text, Connector.text, nameW]

theorem chained_fits (h : s.length + 10 ≤ maxLine) : chained.Fits s where
  line := by
    rw [chained_text]
    simp only [List.length_cons, List.length_append, List.length_nil]
    omega
  cmds := by
    intro seg hseg
    rw [List.mem_singleton.1 hseg]
    decide
  args := by
    intro seg hseg c hc
    rw [List.mem_singleton.1 hseg] at hc
    rcases List.mem_cons.1 hc with rfl | hc
    · decide
    · rw [List.mem_singleton.1 hc]
      decide

theorem alone_run : (alone.run quiet s bare).1 = [.invoke [['w'], s]] := rfl

theorem chained_run : (chained.run quiet s bare).1 = [.invoke [['w'], s]] := rfl

theorem trimWs_cons (hc : isSpace c = false) : ∃ t', trimWs (c :: t) = c :: t' ∧ t' <+: t := by
  simp only [isSpace, Bool.or_eq_false_iff] at hc
  have hleft : (c :: t).dropWhile isBlank = c :: t := List.dropWhile_cons_of_neg (by simp [isBlank, hc])
  have hfront : trimWs (c :: t) <+: c :: t := by
    rw [trimWs, hleft]
    have := List.reverse_prefix.2 (List.dropWhile_suffix (l := (c :: t).reverse) fun c => isBlank c || c = '\r' || c = '\n')
    rwa [List.reverse_reverse] at this
  have hne : trimWs (c :: t) ≠ [] := by
    rw [trimWs, hleft]
    intro h
    have hall := List.dropWhile_eq_nil_iff.1 (List.reverse_eq_nil_iff.1 h) c (by simp)
    simp [isBlank, hc] at hall
  obtain ⟨d, t', ht'⟩ := List.exists_cons_of_ne_nil hne
  rw [ht'] at hfront ⊢
  obtain ⟨rfl, h⟩ := List.cons_prefix_cons.1 hfront
  exact ⟨t', rfl, h⟩

theorem readSeg_isPrefix (qi qd : Bool) (n : Nat) (t : Text) : (readSeg qi qd n t).1 <+: t := by
  induction t generalizing qi qd n with
  | nil => cases n <;> exact List.prefix_rfl
  | cons c t ih =>
    cases n with
    | zero => exact List.nil_prefix
    | succ n =>
      rw [readSeg]
      split
      · exact (List.prefix_cons_inj c).2 (ih _ _ _)
      split
      · exact (List.prefix_cons_inj c).2 (ih _ _ _)
      split
      · exact List.nil_prefix
      · exact (List.prefix_cons_inj c).2 (ih _ _ _)

theorem runSegs_isPrefix {α : Type} {exec : α → Run Unit Int} {skip : α → Bool} {a : α} {l : List α} {ret : Int}
    {σ : State Unit} (h : skip a = false) : (exec a σ).1 <+: (runSegs exec skip ret (a :: l) σ).1 := by
  rw [runSegs, h, if_neg Bool.false_ne_true]
  exact Act.prefix_bind _ _ σ

/-- **A string that stands for itself in `w 's'`** is a word, with a backslash at most behind it, that expands to itself. -/
theorem Verbatim.alone (hs : '\'' ∉ s) (hlen : s.length + 10 ≤ maxLine) (h : Verbatim s) :
    s ≠ [] ∧ wordLike s = true ∧ unexpanded s = true := by
  have hrun := congrArg Prod.fst (congrFun (h.run quiet Sh.alone (alone_fits hlen)) bare)
  have hfits := (alone_fits hlen).line
  have hends : Ends (Sh.alone.text s) := ⟨'w' :: ' ' :: '\'' :: s, '\'', alone_text, rfl⟩
  have hbegins : Begins (Sh.alone.text s) := renderSegs_begins _ _ _
  have hval : renderSegs (Arg.value s) Sh.alone.first Sh.alone.rest = 'w' :: ' ' :: s := by
    simp [Sh.alone, renderSegs, Segment.render, renderFrom, Command.render, Arg.value, nameW]
  have hexp : expandVars quiet (maxLine * 4) (Sh.alone.text s) = pure ('w' :: ' ' :: s) := by
    have hunq := Sh.alone.unquotes hs
    have hle := hunq.length_le
    rw [hval] at hunq hle
    exact hunq.expandLoop (Nat.le_refl _) (by simp only [maxLine] at *; omega)
  rw [alone_run, shRun_begins hfits (trimWs_self hbegins hends) hbegins, hexp, pure_bind] at hrun
  by_cases hsemi : ';' ∉ 'w' :: ' ' :: s
  · rw [if_pos hsemi] at hrun
    have hne : execSimple quiet ('w' :: ' ' :: s) ≠ Act.never := by
      intro hnever
      rw [hnever] at hrun
      cases hrun
    exact execSimple_loss (Or.inr rfl) (Nat.le_refl _) hne (hrun ▸ List.prefix_rfl)
  -- the first segment is a part of the text
  rw [if_neg hsemi] at hrun
  obtain ⟨seg, rest, hread⟩ : ∃ seg rest, readSeg false false (maxLine - 3) s = (seg, rest) := ⟨_, _, rfl⟩
  have hread' : readSeg false false (maxLine - 1) ('w' :: ' ' :: s) = ('w' :: ' ' :: seg, rest) := by
    change push 'w' (push ' ' (readSeg false false (maxLine - 3) s)) = _
    rw [hread]
    rfl
  obtain ⟨q, hq, hqpre⟩ := trimWs_cons (c := 'w') (t := ' ' :: seg) (by decide)
  rw [List.length_cons, segments_succ (List.cons_ne_nil _ _) hread', hq] at hrun
  have hne : execSimple quiet ('w' :: q) ≠ Act.never := by
    intro hnever
    simp only [runSegs, hnever] at hrun
    cases hrun
  have hpre : (execSimple quiet ('w' :: q) bare).1 <+: [.invoke [['w'], s]] := by
    rw [← hrun]
    exact runSegs_isPrefix rfl
  obtain ⟨p, hqp, hple⟩ : ∃ p, (q = [] ∧ p = [] ∨ q = ' ' :: p) ∧ p.length ≤ s.length := by
    have hseg := readSeg_isPrefix false false (maxLine - 3) s
    rw [hread] at hseg
    cases q with
    | nil => exact ⟨[], Or.inl ⟨rfl, rfl⟩, Nat.zero_le _⟩
    | cons c q =>
      obtain ⟨rfl, hqseg⟩ := List.cons_prefix_cons.1 hqpre
      exact ⟨q, Or.inr rfl, (hqseg.trans hseg).length_le⟩
  exact execSimple_loss hqp hple hne hpre

theorem wordLike_cases : ∀ {t : Text}, wordLike t = true →
    (∀ c ∈ t, isTok c = true) ∨ ∃ p, t = p ++ ['\\'] ∧ ∀ c ∈ p, isTok c = true
  | [], _ => Or.inl (List.forall_mem_nil _)
  | c :: t, h => by
    simp only [wordLike, Bool.and_eq_true, Bool.or_eq_true, decide_eq_true_eq] at h
    obtain ⟨hc | ⟨rfl, rfl⟩, ht⟩ := h
    · rcases wordLike_cases ht with hall | ⟨p, rfl, hall⟩
      · exact Or.inl (List.forall_mem_cons.2 ⟨hc, hall⟩)
      · exact Or.inr ⟨c :: p, rfl, List.forall_mem_cons.2 ⟨hc, hall⟩⟩
    · exact Or.inr ⟨[], rfl, List.forall_mem_nil _⟩

theorem inert_of_unexpanded : ∀ {t : Text}, (∀ c ∈ t, isTok c = true) → unexpanded t = true → inert t = true
  | [], _, _ => rfl
  | c :: t, h, hun => by
    obtain ⟨hc, ht⟩ := List.forall_mem_cons.1 h
    simp only [unexpanded, Bool.and_eq_true] at hun
    simp only [inert, hc, hun.1.1, hun.1.2, inert_of_unexpanded ht hun.2, Bool.and_self]

/-- A backslash takes the blank behind it into the word. -/
theorem readWord_escaped (h : ∀ c ∈ t, isTok c = true) : ∀ {n}, t.length + 1 ≤ n →
    readWord .plain n (t ++ '\\' :: ' ' :: '|' :: p) = (t ++ [' '], '|' :: p) := by
  induction t with
  | nil =>
    intro n hn
    obtain ⟨n, rfl⟩ : ∃ m, n = m + 1 := ⟨n - 1, by omega⟩
    have hends : ∀ d q, '|' :: p = d :: q → endsWord d = true := by
      intro d q heq
      cases heq
      rfl
    rw [List.nil_append, readWord_plain, if_neg (by decide), if_neg (by decide), if_pos rfl]
    simp only [readWord_ends hends]
    rfl
  | cons c t ih =>
    intro n hn
    obtain ⟨n, rfl⟩ : ∃ m, n = m + 1 := ⟨n - 1, by omega⟩
    rw [List.cons_append, readWord_tok (h c List.mem_cons_self),
      ih (fun d hd => h d (List.mem_cons_of_mem _ hd)) (by simpa using hn)]
    rfl

theorem Tokens.escaped (h : ∀ c ∈ t, isTok c = true) (hlen : t.length + 1 < maxLine)
    (htokens : Tokens nc (addArg cur (t ++ [' '])) ('|' :: p) cmds) :
    Tokens nc cur (t ++ '\\' :: ' ' :: '|' :: p) cmds := by
  intro fuel hf
  have hread := readWord_escaped (p := p) h (Nat.le_sub_one_of_lt hlen)
  obtain ⟨c, r, hcr, hends, hgt⟩ : ∃ c r, t ++ '\\' :: ' ' :: '|' :: p = c :: r ∧ endsWord c = false ∧ r.head? ≠ some '>' := by
    cases t with
    | nil => exact ⟨'\\', _, rfl, rfl, by simp⟩
    | cons c t =>
      obtain ⟨hc, ht⟩ := List.forall_mem_cons.1 h
      refine ⟨c, _, rfl, (isTok_cases hc).1, ?_⟩
      cases t with
      | nil => simp
      | cons d t =>
        intro heq
        cases Option.some.inj heq
        exact absurd (ht '>' List.mem_cons_self) (by decide)
  have hle := congrArg List.length hcr
  simp only [List.length_append, List.length_cons] at hle hf
  obtain ⟨fuel, rfl⟩ : ∃ m, fuel = m + 1 := ⟨fuel - 1, by omega⟩
  rw [hcr] at hread ⊢
  rw [tokenizeFrom_word hends hgt hread (by simp only [List.length_cons]; omega)]
  exact htokens fuel (by simp only [List.length_cons]; omega)

/-- **No backslash at the end**: in `w 's' || w` it would take the blank in front of the `||`. -/
theorem Verbatim.chained (hs : '\'' ∉ s) (hlen : s.length + 10 ≤ maxLine) (h : Verbatim s) (hp : ∀ c ∈ p, isTok c = true) :
    s ≠ p ++ ['\\'] := by
  rintro rfl
  have hrun := congrArg Prod.fst (congrFun (h.run quiet Sh.chained (chained_fits hlen)) bare)
  have hfits := (chained_fits hlen).line
  have hends : Ends (Sh.chained.text (p ++ ['\\'])) :=
    ⟨'w' :: ' ' :: '\'' :: (p ++ ['\\', '\'', ' ', '|', '|', ' ']), 'w', by rw [chained_text]; simp, rfl⟩
  have hbegins : Begins (Sh.chained.text (p ++ ['\\'])) := renderSegs_begins _ _ _
  have hval : renderSegs (Arg.value (p ++ ['\\'])) Sh.chained.first Sh.chained.rest =
      'w' :: ' ' :: (p ++ '\\' :: ' ' :: '|' :: '|' :: ' ' :: ['w']) := by
    simp [Sh.chained, renderSegs, Segment.render, renderFrom, Command.render, Arg.value, Connector.text, nameW]
  have hexp : expandVars quiet (maxLine * 4) (Sh.chained.text (p ++ ['\\'])) =
      pure ('w' :: ' ' :: (p ++ '\\' :: ' ' :: '|' :: '|' :: ' ' :: ['w'])) := by
    have hunq := Sh.chained.unquotes hs
    have hle := hunq.length_le
    rw [hval] at hunq hle
    exact hunq.expandLoop (Nat.le_refl _) (by simp only [maxLine] at *; omega)
  have hsemi : ';' ∉ 'w' :: ' ' :: (p ++ '\\' :: ' ' :: '|' :: '|' :: ' ' :: ['w']) := by
    intro hmem
    have hpsemi : ';' ∉ p := fun h => absurd (hp ';' h) (by decide)
    simp [hpsemi] at hmem
  simp only [List.length_append, List.length_singleton] at hlen
  have hw : Token ['w'] := ⟨by decide, List.forall_mem_singleton.2 rfl, by decide⟩
  have htokens : Tokens 0 {} ('w' :: ' ' :: (p ++ '\\' :: ' ' :: '|' :: '|' :: ' ' :: ['w']))
      [{ argv := [['w'], p ++ [' ']], connector := .or }, { argv := [['w']] }] := by
    have hlast : Tokens 1 {} (['w'] ++ []) [{ argv := [['w']] }] := Tokens.arg hw (by decide) (Or.inl rfl) Tokens.nil
    refine Tokens.arg (t := ['w']) hw (by decide) (Or.inr ⟨_, rfl⟩) (Tokens.blank rfl (Tokens.escaped hp (by omega) ?_))
    rw [addArg_of (by simp) (by change 1 < maxArgs - 1; decide)]
    exact Tokens.connector (k := .or) (by decide) (by decide) ⟨['w'], rfl⟩ (Tokens.blank rfl hlast)
  have hbegins' : Begins ('w' :: ' ' :: (p ++ '\\' :: ' ' :: '|' :: '|' :: ' ' :: ['w'])) :=
    ⟨nameW, _, rfl, Or.inr ⟨_, rfl⟩⟩
  rw [chained_run, shRun_begins hfits (trimWs_self hbegins hends) hbegins, hexp, pure_bind, if_pos hsemi,
    execSimple_of_tokens hbegins' (tokenize_of_tokens htokens (by simp))] at hrun
  have hchain : (child quiet quietExpand bare 0 { argv := [['w'], p ++ [' ']], connector := .or }).1 <+:
      (execChain quiet quietExpand (1 + 1) 0
        [{ argv := [['w'], p ++ [' ']], connector := .or }, { argv := [['w']] }] bare).1 := execChain_quiet rfl
  have hfront := hchain.trans ⟨[], (List.append_nil _).trans hrun⟩
  obtain ⟨a, ha, ev, hout⟩ := child_arg rfl hfront
  obtain rfl := (List.cons.inj ha).1
  obtain ⟨ev', out, hout', -, heq⟩ := quietExpand_loss (p ++ [' '])
  rw [hout] at hout'
  cases hout'
  obtain ⟨-, hblank, -⟩ := heq (by simp)
  simp at hblank

/-! ## The parentheses of a sub-shell -/

theorem depthAfter_none : ∀ {t : Text} {d : Nat}, depthAfter d t = none → depthAfter d (t ++ u) = none
  | [], _, h => by cases h
  | c :: t, d, h => by
    by_cases hc : c = ')' ∧ d = 1
    · rw [List.cons_append, depthAfter, if_pos hc]
    · rw [depthAfter_cons hc] at h
      rw [List.cons_append, depthAfter_cons hc]
      exact depthAfter_none h

theorem readParens_short : ∀ {t : Text} {n d : Nat}, depthAfter d t = none → (readParens n d (t ++ p)).1.length < t.length
  | [], _, _, h => by cases h
  | c :: t, 0, d, _ => by simp [readParens]
  | c :: t, n + 1, d, h => by
    rw [List.cons_append, readParens]
    by_cases hc : c = ')' ∧ d = 1
    · rw [if_pos hc]
      simp
    · rw [if_neg hc]
      rw [depthAfter_cons hc] at h
      simpa using readParens_short h

/-- The text is read whole only when its parentheses are balanced. -/
theorem readParens_whole (hn : t.length < n) (h : (readParens n 1 (t ++ [')'])).1 = t) : depthAfter 1 t = some 1 := by
  rcases hd : depthAfter 1 t with _ | d
  · have := readParens_short (n := n) (p := [')']) hd
    rw [h] at this
    exact absurd this (Nat.lt_irrefl _)
  · rw [readParens_append hd (Nat.le_of_lt hn)] at h
    obtain ⟨m, hm⟩ : ∃ m, n - t.length = m + 1 := ⟨n - t.length - 1, by omega⟩
    rw [hm] at h
    by_cases h1 : d = 1
    · rw [h1]
    · rw [readParens, if_neg (fun h => h1 h.2)] at h
      simp at h

/-- **The parentheses are balanced**: in `w $(w 's')` the sub-shell is handed the text up to the one that closes. -/
theorem Verbatim.balanced (hlen : s.length + 10 ≤ maxLine) (h : Verbatim s) : depthAfter 1 s = some 1 := by
  have htext : substText nameW [] (Sh.alone.text s) [] = ['w', ' '] ++ '$' :: ('(' :: (Sh.alone.text s ++ [')'])) := rfl
  have hshort : (substText nameW [] (Sh.alone.text s) []).length < maxLine := by
    rw [htext, alone_text]
    simp only [List.length_append, List.length_cons, List.length_nil]
    omega
  have hfirst : (shRun quiet (substText nameW [] (Sh.alone.text s) [])).first bare = some (.capture (Sh.alone.text s)) :=
    h.subst quiet bare (Script.line (alone_fits hlen)) (List.forall_mem_nil _) hshort
  have hbegins : Begins (substText nameW [] (Sh.alone.text s) []) := ⟨nameW, _, rfl, Or.inr ⟨_, rfl⟩⟩
  have hends : Ends (substText nameW [] (Sh.alone.text s) []) :=
    ⟨'w' :: ' ' :: '$' :: '(' :: Sh.alone.text s, ')', rfl, rfl⟩
  have hstep : (expandStep quiet '$' ('(' :: (Sh.alone.text s ++ [')']))).first bare =
      some (.capture (readParens (maxLine - 1) 1 (Sh.alone.text s ++ [')'])).1) := rfl
  have hloop : (expandVars quiet (maxLine * 4) (substText nameW [] (Sh.alone.text s) [])).first bare =
      some (.capture (readParens (maxLine - 1) 1 (Sh.alone.text s ++ [')'])).1) := by
    rw [htext]
    exact expandLoop_first (by simp [isLit, backtick]) hstep (by simp) (by decide)
  rw [shRun_begins hshort (trimWs_self hbegins hends) hbegins, Act.first_bind hloop] at hfirst
  have hread : (readParens (maxLine - 1) 1 (Sh.alone.text s ++ [')'])).1 = Sh.alone.text s := by
    simpa using hfirst
  have hline : (Sh.alone.text s).length < maxLine - 1 := by
    rw [alone_text]
    simp only [List.length_cons, List.length_append, List.length_nil]
    omega
  have hdepth := readParens_whole hline hread
  have hflat : depthAfter 1 ['w', ' ', '\''] = some 1 := by decide
  rw [alone_text] at hdepth
  rw [show 'w' :: ' ' :: '\'' :: (s ++ ['\'']) = ['w', ' ', '\''] ++ (s ++ ['\'']) from rfl, depthAfter_append hflat] at hdepth
  rcases hd : depthAfter 1 s with _ | d
  · rw [depthAfter_none hd] at hdepth
    cases hdepth
  · rw [depthAfter_append hd] at hdepth
    exact hdepth

/-! ## The strings that survive -/

end Sh
end Pico
