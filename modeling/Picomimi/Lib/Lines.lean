import Mathlib.Data.List.Induction
/-!
# Lines — a text cut into lines, and a line edited as it is typed

`cut` cuts a text behind each line end; what is behind the last one is the line that is still being typed.  `edit` is what
is left of the characters typed when an erase takes back the last of them and a kill all of them.
-/
namespace Pico
namespace Lib
namespace Lines

variable {α : Type} (isEnd : α → Bool)

def cutChar (p : List (List α) × List α) (c : α) : List (List α) × List α :=
  if isEnd c then (p.1 ++ [p.2 ++ [c]], []) else (p.1, p.2 ++ [c])

/-- A text cut behind each line end: the lines, and what is behind the last of them. -/
def cut (l : List α) : List (List α) × List α := l.foldl (cutChar isEnd) ([], [])

@[simp] theorem cut_append_singleton (l : List α) (c : α) : cut isEnd (l ++ [c]) = cutChar isEnd (cut isEnd l) c := by
  simp [cut, List.foldl_append]

variable [DecidableEq α] (erase kill : α)

def editChar (line : List α) (c : α) : List α :=
  if c = erase then line.dropLast else if c = kill then [] else line ++ [c]

/-- What erasing and killing leave of the characters typed. -/
def edit (l : List α) : List α := l.foldl (editChar erase kill) []

@[simp] theorem edit_nil : edit erase kill [] = [] := rfl

@[simp] theorem edit_append_singleton (l : List α) (c : α) :
    edit erase kill (l ++ [c]) = editChar erase kill (edit erase kill l) c := by
  simp [edit, List.foldl_append]

variable {erase kill} in
/-- What is left was typed. -/
theorem mem_of_mem_edit {a : α} {l : List α} (h : a ∈ edit erase kill l) : a ∈ l := by
  induction l using List.reverseRecOn with
  | nil => exact h
  | append_singleton l c ih =>
    rw [edit_append_singleton, editChar] at h
    split at h
    · exact List.mem_append_left _ (ih (List.dropLast_subset _ h))
    · split at h
      · cases h
      · rcases List.mem_append.1 h with h | h
        · exact List.mem_append_left _ (ih h)
        · exact List.mem_append_right _ h

end Lines
end Lib
end Pico
