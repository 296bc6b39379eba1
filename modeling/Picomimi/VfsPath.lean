import Mathlib.Data.List.TakeWhile
import Picomimi.VfsRun
/-!
# VfsPath — the text of a path and the names it gives

`baseName`, `dirName` and `components` cut a path at the same slashes (`components_eq`); `names` is the tree as a path sees
it, and `SameTree` compares two states by it.
-/
namespace Pico
namespace Vfs

open Lib

variable {s t : Fs} {c d e i p v : Nat} {m n : Name} {path b : List Char} {pre cs : List Name}

/-! ## Text -/

theorem baseLoop_of_not_mem : ∀ (l : List Char) {base : List Char}, '/' ∉ l → baseLoop base l = base
  | [], _, _ => rfl
  | c :: l, base, h => by
    have hc : ¬c = '/' := fun hc => h (hc ▸ List.mem_cons_self)
    rw [baseLoop, if_neg hc]
    exact baseLoop_of_not_mem l fun hl => h (List.mem_cons_of_mem _ hl)

theorem baseLoop_append (hb : '/' ∉ b) : ∀ (l : List Char) {base : List Char}, baseLoop base (l ++ '/' :: b) = b
  | [], base => by
    rw [List.nil_append, baseLoop, if_pos rfl]
    exact baseLoop_of_not_mem b hb
  | c :: l, base => by
    rw [List.cons_append, baseLoop]
    split
    · exact baseLoop_append hb l
    · exact baseLoop_append hb l

/-- A path has no slash, or it is cut at its last one. -/
theorem path_cases (path : List Char) : ('/' ∉ path ∧ baseName path = path ∧ dirName path = []) ∨
    ('/' ∉ baseName path ∧ path = dirName path ++ '/' :: baseName path) := by
  have hcut : path.reverse.takeWhile (· ≠ '/') ++ path.reverse.dropWhile (· ≠ '/') = path.reverse :=
    List.takeWhile_append_dropWhile
  cases hdrop : path.reverse.dropWhile (· ≠ '/') with
  | nil =>
    have hnot : '/' ∉ path := by
      have h := List.dropWhile_eq_nil_iff.1 hdrop
      intro hmem
      simpa using h '/' (List.mem_reverse.2 hmem)
    refine .inl ⟨hnot, baseLoop_of_not_mem path hnot, ?_⟩
    rw [dirName, hdrop]
    rfl
  | cons c r =>
    have hc : c = '/' := by
      have h := List.head?_dropWhile_not (fun c => decide (c ≠ '/')) path.reverse
      rw [hdrop] at h
      simpa using h
    have hb : '/' ∉ (path.reverse.takeWhile (· ≠ '/')).reverse := by
      intro hmem
      have := List.mem_takeWhile_imp (List.mem_reverse.1 hmem)
      simp at this
    have hdir : dirName path = r.reverse := by
      rw [dirName, hdrop]
      rfl
    have hpath : path = r.reverse ++ '/' :: (path.reverse.takeWhile (· ≠ '/')).reverse := by
      rw [hdrop, hc] at hcut
      have h := congrArg List.reverse hcut
      rw [List.reverse_reverse, List.reverse_append, List.reverse_cons, List.append_assoc] at h
      exact h.symm
    have hbase : baseName path = (path.reverse.takeWhile (· ≠ '/')).reverse := by
      have h : baseLoop path (r.reverse ++ '/' :: (path.reverse.takeWhile (· ≠ '/')).reverse) = _ :=
        baseLoop_append hb r.reverse
      rwa [← hpath] at h
    refine .inr ⟨hbase ▸ hb, ?_⟩
    rw [hdir, hbase]
    exact hpath

theorem components_of_not_mem (h : '/' ∉ b) : components b = if b = [] then [] else [b] := by
  rw [components, List.splitOn_eq_singleton h]
  cases b <;> rfl

/-- **The components of a path are those of the text before its last slash, and the name after it** if there is one. -/
theorem components_eq (path : List Char) :
    components path = components (dirName path) ++ if baseName path = [] then [] else [baseName path] := by
  rcases path_cases path with ⟨hnot, hbase, hdir⟩ | ⟨hb, hpath⟩
  · rw [hbase, hdir, components_of_not_mem hnot]
    rfl
  · rw [← components_of_not_mem hb]
    conv_lhs => rw [hpath, components, List.splitOn_append_cons_self, List.filter_append]
    rfl

theorem ne_nil_of_mem_components (h : n ∈ components path) : n ≠ [] := by
  simpa using (List.mem_filter.1 h).2

/-! ## The tree -/

/-- The inode a path names. -/
def names (s : Fs) (cs : List Name) : Option Nat :=
  match resolve s cs with
  | .ok d => s.inode d
  | .error _ => none

/-- **The same tree**: every path names the same inode, with the same contents. -/
def SameTree (s t : Fs) : Prop := ∀ cs, names s cs = names t cs ∧ ∀ i, names s cs = some i → s.inodes i = t.inodes i

theorem SameTree.refl (s : Fs) : SameTree s s := fun _ => ⟨rfl, fun _ _ => rfl⟩

theorem names_of_ok (h : resolve s cs = .ok d) : names s cs = s.inode d := by rw [names, h]

end Vfs
end Pico
