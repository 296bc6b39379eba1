import Picomimi.Lib.Ring
import Picomimi.Lib.Run
import Picomimi.Sh
/-!
# ShHistory — the lines the shell remembers

`hist_add` stores a line behind the last one in the circular `g_hist`, over the oldest one when the array is full, and
`hist_get` counts back from there.  Over every run they are a list of lines, the newest in front (`histGet_of_run`).
-/
namespace Pico
namespace ShHistory

open Lib
open Sh (Text)

def histSize : Nat := 128

/-- `g_hist` with `none` for a null pointer, `g_hist_head` and `g_hist_cnt`. -/
structure State where
  hist : Nat → Option Text
  head : Nat
  cnt : Nat

def histGet (s : State) (back : Int) : Option Text :=
  if back < 1 ∨ s.cnt < back then none
  else s.hist ((s.head - back + histSize * 4).tmod histSize).toNat

/-- `mem`: whether `strdup` finds memory. -/
def histAdd (s : State) (mem : Bool) (l : Text) : State :=
  if l = [] then s
  else if 0 < s.cnt ∧ s.hist ((s.head + histSize - 1) % histSize) = some l then s
  else
    { hist := Function.update s.hist (s.head % histSize) (if mem then some l else none)
      head := (s.head + 1) % histSize
      cnt := if s.cnt < histSize then s.cnt + 1 else s.cnt }

def machine : Machine State (Bool × Text) where
  init s := s = ⟨fun _ => none, 0, 0⟩
  step s a := some (histAdd s a.1 a.2)

/-- **The lines there are to remember**, the newest in front: no line twice running, and a gap where memory lacked. -/
def record (lines : List (Option Text)) (a : Bool × Text) : List (Option Text) :=
  if a.2 = [] ∨ lines.head? = some (some a.2) then lines else (if a.1 then some a.2 else none) :: lines

/-- The ring holds the newest lines. -/
def Holds (s : State) (lines : List (Option Text)) : Prop :=
  ∃ rd, Ring.Wf histSize rd s.head s.cnt ∧ Ring.content s.hist histSize rd s.cnt = (lines.take histSize).reverse

variable {s s' : State} {lines : List (Option Text)}

theorem Holds.cnt_eq (h : Holds s lines) : s.cnt = min histSize lines.length := by
  obtain ⟨rd, -, hcont⟩ := h
  simpa using congrArg List.length hcont

/-- **The cell `b` behind the newest line** has the line that is `b` behind it. -/
theorem Holds.cell (h : Holds s lines) {b : Nat} (hb : b < s.cnt) :
    lines[b]? = some (s.hist ((s.head + histSize * 4 - 1 - b) % histSize)) := by
  have hcnt := h.cnt_eq
  obtain ⟨rd, hwf, hcont⟩ := h
  have hlen : (lines.take histSize).length = s.cnt := by rw [List.length_take, hcnt]
  have hget : (Ring.content s.hist histSize rd s.cnt)[s.cnt - 1 - b]? = lines[b]? := by
    rw [hcont, List.getElem?_reverse (by omega), hlen, show s.cnt - 1 - (s.cnt - 1 - b) = b by omega,
      List.getElem?_take_of_lt (by omega)]
  rw [← hget, Ring.content, List.getElem?_map, List.getElem?_range (by omega), Option.map_some]
  have hidx : (rd + (s.cnt - 1 - b)) % histSize = (s.head + histSize * 4 - 1 - b) % histSize := by
    have := hwf.wr_eq
    have := hwf.len_le
    unfold histSize at *
    omega
  rw [hidx]

/-- The line is the newest one. -/
theorem Holds.repeats_iff (h : Holds s lines) (l : Text) :
    (0 < s.cnt ∧ s.hist ((s.head + histSize - 1) % histSize) = some l) ↔ lines.head? = some (some l) := by
  rw [List.head?_eq_getElem?]
  by_cases hpos : 0 < s.cnt
  · rw [h.cell hpos, show (s.head + histSize * 4 - 1 - 0) % histSize = (s.head + histSize - 1) % histSize by
      unfold histSize
      omega]
    simp [hpos]
  · have hnil : lines = [] := by
      have := h.cnt_eq
      unfold histSize at this
      exact List.length_eq_zero_iff.1 (by omega)
    simp [hnil, hpos]

/-- **A line is stored** in a ring with room, and over the oldest one in a full ring. -/
theorem Holds.push (h : Holds s lines) (x : Option Text) :
    Holds ⟨Function.update s.hist (s.head % histSize) x, (s.head + 1) % histSize,
      if s.cnt < histSize then s.cnt + 1 else s.cnt⟩ (x :: lines) := by
  have hcnt := h.cnt_eq
  obtain ⟨rd, hwf, hcont⟩ := h
  rw [Nat.mod_eq_of_lt hwf.wr_lt]
  by_cases hroom : s.cnt < histSize
  · refine ⟨rd, by simpa [hroom] using hwf.push hroom, ?_⟩
    simp only [if_pos hroom]
    rw [Ring.content_push hwf hroom, hcont, ← List.reverse_cons, List.take_of_length_le (by omega),
      List.take_of_length_le (by rw [List.length_cons]; omega)]
  · obtain ⟨n, hn⟩ : ∃ n, s.cnt = n + 1 := Nat.exists_eq_add_one.2 (Nat.lt_of_lt_of_le (by decide) (Nat.not_lt.1 hroom))
    have hsize : histSize = n + 1 := Nat.le_antisymm (hn ▸ Nat.not_lt.1 hroom) (hn ▸ hwf.len_le)
    have hlt : n < histSize := by omega
    simp only [if_neg hroom]
    rw [hn] at hwf hcont ⊢
    have htail : Ring.content s.hist histSize ((rd + 1) % histSize) n = (lines.take n).reverse := by
      have hcons := congrArg List.tail hcont
      rwa [Ring.content_pop hwf, List.tail_cons, List.tail_reverse, List.dropLast_eq_take, List.length_take, ← hcnt, hn,
        Nat.add_sub_cancel, List.take_take, Nat.min_eq_left (Nat.le_of_lt hlt)] at hcons
    refine ⟨(rd + 1) % histSize, hwf.pop.push hlt, ?_⟩
    rw [Ring.content_push hwf.pop hlt, htail, ← List.reverse_cons, hsize, List.take_succ_cons]

theorem Holds.histAdd (h : Holds s lines) (a : Bool × Text) : Holds (histAdd s a.1 a.2) (record lines a) := by
  unfold ShHistory.histAdd record
  by_cases hnil : a.2 = []
  · rwa [if_pos hnil, if_pos (.inl hnil)]
  · by_cases hrep : lines.head? = some (some a.2)
    · rwa [if_neg hnil, if_pos ((h.repeats_iff _).2 hrep), if_pos (.inr hrep)]
    · rw [if_neg hnil, if_neg (mt (h.repeats_iff _).1 hrep), if_neg (not_or.2 ⟨hnil, hrep⟩)]
      exact h.push _

theorem holds_of_run : ∀ (l : List (Bool × Text)) {s : State} {lines : List (Option Text)}, Holds s lines →
    machine.run s l = some s' → Holds s' (l.foldl record lines)
  | [], _, _, h, hrun => by
    cases hrun
    exact h
  | a :: l, _, _, h, hrun => by
    obtain ⟨t, ht, hrun⟩ := machine.run_cons.1 hrun
    cases ht
    exact holds_of_run l (h.histAdd a) hrun

/-- **`hist_get` counts back through the lines**, as far as the array goes. -/
theorem histGet_of_run (l : List (Bool × Text)) (h0 : machine.init s) (h : machine.run s l = some s') :
    (∀ back : Int, back < 1 → histGet s' back = none) ∧
      ∀ b : Nat, histGet s' (b + 1) = (((l.foldl record []).take histSize)[b]?).join := by
  subst h0
  have hboot : Holds ⟨fun _ => none, 0, 0⟩ [] := ⟨0, Ring.wf_zero (by decide), rfl⟩
  have hs := holds_of_run l hboot h
  refine ⟨fun back hback => if_pos (.inl hback), fun b => ?_⟩
  have hcnt := hs.cnt_eq
  by_cases hb : b < s'.cnt
  · rw [List.getElem?_take_of_lt (by omega), hs.cell hb, Option.join_some, histGet, if_neg (by omega)]
    unfold histSize at hcnt ⊢
    rw [Int.tmod_eq_emod_of_nonneg (by omega)]
    congr 1
    omega
  · rw [List.getElem?_eq_none (by rw [List.length_take]; omega), histGet, if_pos (by omega)]
    rfl

/-- Three lines, of which one is the one before it. -/
theorem histGet_of_run_repeated : ∃ s', machine.run ⟨fun _ => none, 0, 0⟩ [(true, ['a']), (true, ['b']), (true, ['b'])] =
    some s' ∧ histGet s' 2 = some ['a'] :=
  ⟨_, rfl, (histGet_of_run [_, _, _] rfl rfl).2 1⟩

end ShHistory
end Pico
