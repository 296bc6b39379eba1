import Mathlib.Data.List.Find
import Picomimi.Lib.Run
import Picomimi.Lib.Walk
import Picomimi.VfsOps
/-!
# VfsTree — the tree of dentries, and what it resolves

`edge` is one component of a path, answered from the children lists alone, and `resolve` walks it: `kern_path` is `resolve`
and, where that stops, one negative dentry more (`kernPath_eq`).  `Wf` is the shape of the tree, kept by every call
(`wf_of_run`).
-/
namespace Pico
namespace Vfs

open Lib

/-! ## The allocator -/

/-- The next answer of `kmalloc`. -/
def answer (as : List Bool) : Bool := as.head?.getD true

/-- Is there memory for a dentry of this name? -/
def roomFor (as : List Bool) (n : Name) : Bool := answer as && (n.length < dInameSize || answer as.tail)

/-- The answers left after `d_alloc`. -/
def leftFor (as : List Bool) (n : Name) : List Bool := if answer as && n.length ≥ dInameSize then as.tail.tail else as.tail

/-- The dentry `d_alloc` makes when there is memory. -/
def addDentry (s : Fs) (p : Nat) (n : Name) : Fs :=
  let t := { s.setDentry s.nrDentry ⟨n, p, none, []⟩ with nrDentry := s.nrDentry + 1 }
  t.setDentry p { t.dentries p with dSubdirs := s.nrDentry :: t.subdirs p }

def withMem (s : Fs) (as : List Bool) : Fs := { s with kmalloc := as }

variable {s t : Fs} {as : List Bool} {c d e i p v : Nat} {m n : Name} {q : Nat × Name}

theorem kmallocOk_eq (s : Fs) : kmallocOk s = (answer s.kmalloc, withMem s s.kmalloc.tail) := by
  obtain ⟨_, _, _, _, _, _, _, _, _, _, _, _, as⟩ := s
  cases as <;> rfl

theorem dAlloc_eq (s : Fs) (p : Nat) (n : Name) :
    dAlloc s p n = if roomFor s.kmalloc n then (some s.nrDentry, addDentry (withMem s (leftFor s.kmalloc n)) p n)
      else (none, withMem s (leftFor s.kmalloc n)) := by
  unfold dAlloc
  cases ha : answer s.kmalloc with
  | false => simp [kmallocOk_eq, ha, roomFor, leftFor]
  | true =>
    by_cases hn : n.length < dInameSize
    · have hroom : roomFor s.kmalloc n = true := by simp [roomFor, ha, hn]
      have hleft : leftFor s.kmalloc n = s.kmalloc.tail := by simp [leftFor, Nat.not_le.2 hn]
      rw [hroom, hleft, kmallocOk_eq, ha]
      simp only [allocName, if_pos hn]
      rfl
    · have hleft : leftFor s.kmalloc n = s.kmalloc.tail.tail := by simp [leftFor, ha, Nat.le_of_not_lt hn]
      have hroom : roomFor s.kmalloc n = answer s.kmalloc.tail := by simp [roomFor, ha, hn]
      rw [hroom, hleft, kmallocOk_eq, ha]
      simp only [allocName, if_neg hn, kmallocOk_eq]
      cases hb : answer s.kmalloc.tail with
      | false => simp [withMem, hb]
      | true =>
        simp only [withMem, hb]
        rfl

theorem newInode_eq (s : Fs) : newInode s = if answer s.kmalloc then
    (some s.nrInode, { (withMem s s.kmalloc.tail).setInode s.nrInode blankInode with nrInode := s.nrInode + 1 })
      else (none, withMem s s.kmalloc.tail) := by
  simp only [newInode, kmallocOk_eq]
  cases answer s.kmalloc <;> rfl

/-! ## What a path component leads to -/

def edge (s : Fs) (d : Nat) (n : Name) : Option Nat :=
  if n = ['.'] then some d
  else if n = ['.', '.'] then some (if d = s.rootDentry then d else s.parent d)
  else (dLookup s d n).map (crossMount s)

/-- **The dentry the components of a path lead to**, or the entry that is missing. -/
def resolve (s : Fs) (cs : List Name) : Except (Nat × Name) Nat := walk (edge s) s.rootDentry cs

/-- A name that is looked up. -/
def Proper (n : Name) : Prop := n ≠ ['.'] ∧ n ≠ ['.', '.']

instance : DecidablePred Proper := fun n => inferInstanceAs (Decidable (n ≠ ['.'] ∧ n ≠ ['.', '.']))

theorem edge_of_proper (hn : Proper n) : edge s d n = (dLookup s d n).map (crossMount s) := by
  rw [edge, if_neg hn.1, if_neg hn.2]

theorem proper_of_edge_none (h : edge s d n = none) : Proper n ∧ dLookup s d n = none := by
  unfold edge at h
  split at h
  · cases h
  · split at h
    · cases h
    · rename_i h1 h2
      exact ⟨⟨h1, h2⟩, Option.map_eq_none_iff.1 h⟩

/-- What `kern_path` does at an entry that is not there. -/
def missed (s : Fs) (q : Nat × Name) : Except Int Nat × Fs :=
  if roomFor s.kmalloc q.2 then (.error (-enoent), addDentry (withMem s (leftFor s.kmalloc q.2)) q.1 q.2)
  else (.error (-enomem), withMem s (leftFor s.kmalloc q.2))

theorem missed_error (s : Fs) (q : Nat × Name) : ∃ err t, missed s q = (.error err, t) := by
  unfold missed
  split
  · exact ⟨_, _, rfl⟩
  · exact ⟨_, _, rfl⟩

@[simp] theorem dentries_withMem (s : Fs) (as : List Bool) : (withMem s as).dentries = s.dentries := rfl

/-- A dentry the lookup of ramfs leaves as it is. -/
theorem ramfsLookup_of_negative (h : s.inode d = none) : ramfsLookup s d = s := by
  have hd : { s.dentries d with dInode := none } = s.dentries d := by
    rw [← h]
    rfl
  rw [ramfsLookup, dInstantiate, Fs.setDentry, hd, Function.update_eq_self]

theorem inode_addDentry_new (s : Fs) (p : Nat) (n : Name) : (addDentry s p n).inode s.nrDentry = none := by
  by_cases hp : p = s.nrDentry
  · simp [addDentry, Fs.inode, Fs.setDentry, hp]
  · simp [addDentry, Fs.inode, Fs.setDentry, Function.update_of_ne (Ne.symm hp)]

theorem lookupOne_of_none (h : dLookup s d n = none) : lookupOne s d n = missed s (d, n) := by
  have hnew : (addDentry (withMem s (leftFor s.kmalloc n)) d n).inode s.nrDentry = none := inode_addDentry_new _ _ _
  simp only [lookupOne, h, dAlloc_eq, missed]
  cases roomFor s.kmalloc n with
  | false => rfl
  | true =>
    simp only [if_true]
    rw [ramfsLookup_of_negative hnew, ite_self, hnew, if_pos rfl]

theorem lookupOne_of_some (h : dLookup s d n = some c) : lookupOne s d n = (.ok c, s) := by simp only [lookupOne, h]

/-- The components `kern_path` walks. -/
def walked (parent : Bool) (cs : List Name) : List Name := if parent then cs.dropLast else cs

theorem walkPath_eq (b : Bool) (s : Fs) : ∀ (cs : List Name) (d : Nat),
    walkPath b s d cs = match walk (edge s) d (walked b cs) with
      | .ok e => (.ok e, s)
      | .error q => missed s q
  | [], d => by cases b <;> rfl
  | n :: rest, d => by
    by_cases hlast : b = true ∧ rest = []
    · rw [walkPath, if_pos hlast, hlast.1, hlast.2]
      rfl
    · have hcs : walked b (n :: rest) = n :: walked b rest := by
        cases b with
        | false => rfl
        | true => exact List.dropLast_cons_of_ne_nil fun h => hlast ⟨rfl, h⟩
      rw [walkPath, if_neg hlast, hcs]
      by_cases h1 : n = ['.']
      · have hedge : edge s d n = some d := by rw [edge, if_pos h1]
        rw [if_pos h1, walk_cons_some hedge]
        exact walkPath_eq b s rest d
      · rw [if_neg h1]
        by_cases h2 : n = ['.', '.']
        · have hedge : edge s d n = some (if d = s.rootDentry then d else s.parent d) := by
            rw [edge, if_neg h1, if_pos h2]
          rw [if_pos h2, walk_cons_some hedge]
          exact walkPath_eq b s rest _
        · rw [if_neg h2]
          have hedge : edge s d n = (dLookup s d n).map (crossMount s) := edge_of_proper ⟨h1, h2⟩
          cases hc : dLookup s d n with
          | none =>
            rw [hc] at hedge
            obtain ⟨err, t, hmissed⟩ := missed_error s (d, n)
            rw [lookupOne_of_none hc, walk_cons_none hedge]
            simp only [hmissed]
          | some c =>
            rw [hc] at hedge
            rw [lookupOne_of_some hc, walk_cons_some hedge]
            exact walkPath_eq b s rest (crossMount s c)

/-- **`kern_path` without following links** is `resolve`, and a negative dentry where that stops. -/
theorem kernPath_eq (s : Fs) (path : List Char) (b : Bool) :
    kernPath s path ⟨b, false⟩ = match resolve s (walked b (components path)) with
      | .ok e => (.ok e, s)
      | .error q => missed s q := by
  rw [kernPath, walkPath_eq, resolve]
  cases walk (edge s) s.rootDentry (walked b (components path)) with
  | ok e => rfl
  | error q =>
    obtain ⟨err, t, hmissed⟩ := missed_error s q
    simp only [hmissed]

/-! ## The shape of the tree -/

/-- **The dentries form trees**: a child knows its parent and is in its list once, the roots are their own parents, and an
entry with an inode is in a directory with an inode. -/
structure Wf (s : Fs) : Prop where
  child : ∀ d, ∀ c ∈ s.subdirs d, s.parent c = d ∧ c ≠ d ∧ c < s.nrDentry
  nodup : ∀ d, (s.subdirs d).Nodup
  parent_lt : ∀ d, d < s.nrDentry → s.parent d < s.nrDentry
  root : s.rootDentry < s.nrDentry ∧ s.parent s.rootDentry = s.rootDentry
  mount : ∀ m ∈ s.mountTable, m.1 < s.nrDentry ∧ m.2 < s.nrDentry ∧ s.parent m.2 = m.2
  positive : ∀ d, d < s.nrDentry → s.inode d ≠ none → s.inode (s.parent d) ≠ none
  inode_lt : ∀ d i, d < s.nrDentry → s.inode d = some i → i < s.nrInode

theorem dLookup_mem (h : dLookup s d n = some c) : c ∈ s.subdirs d ∧ s.name c = n :=
  ⟨List.mem_of_find?_eq_some h, by simpa using List.find?_some h⟩

/-- What a lookup finds is the dentry itself, or the root of what is mounted on it. -/
theorem crossMount_cases (s : Fs) (c : Nat) :
    crossMount s c = c ∨ ∃ m ∈ s.mountTable, m.1 = c ∧ crossMount s c = m.2 := by
  unfold crossMount
  cases h : s.mountTable.find? fun m => m.1 = c with
  | none => exact .inl rfl
  | some m => exact .inr ⟨m, List.mem_of_find?_eq_some h, by simpa using List.find?_some h, rfl⟩

theorem Wf.crossMount_new (hs : Wf s) (h : s.nrDentry ≤ c) : crossMount s c = c := by
  refine (crossMount_cases s c).resolve_right ?_
  rintro ⟨m, hm, rfl, -⟩
  exact absurd (hs.mount m hm).1 (Nat.not_lt.2 h)

/-- Paths lead to dentries that exist. -/
theorem Wf.edge_lt (hs : Wf s) (hd : d < s.nrDentry) (h : edge s d n = some e) : e < s.nrDentry := by
  unfold edge at h
  split at h
  · cases h
    exact hd
  · split at h
    · cases h
      split
      · exact hd
      · exact hs.parent_lt d hd
    · obtain ⟨c, hc, rfl⟩ := Option.map_eq_some_iff.1 h
      rcases crossMount_cases s c with heq | ⟨m, hm, -, heq⟩
      · rw [heq]
        exact (hs.child d c (dLookup_mem hc).1).2.2
      · rw [heq]
        exact (hs.mount m hm).2.1

theorem Wf.resolve_lt (hs : Wf s) {cs : List Name} (h : resolve s cs = .ok d) : d < s.nrDentry :=
  walk_invariant (P := fun d => d < s.nrDentry) (fun _ _ _ hd he => hs.edge_lt hd he) cs hs.root.1 h

theorem Wf.asked_lt (hs : Wf s) (cs : List Name) : ∀ q ∈ asked (edge s) s.rootDentry cs, q.1 < s.nrDentry :=
  asked_invariant (P := fun d => d < s.nrDentry) (fun _ _ _ hd he => hs.edge_lt hd he) cs hs.root.1

theorem Wf.missed_lt (hs : Wf s) {cs : List Name} (h : resolve s cs = .error q) : q.1 < s.nrDentry :=
  hs.asked_lt cs q (missed_of_error cs h).1

/-- The tree is its dentries, the roots and the bounds on the numbers given out; not the names. -/
theorem Wf.congr (hs : Wf s) (hd : ∀ d, t.subdirs d = s.subdirs d ∧ t.parent d = s.parent d ∧ t.inode d = s.inode d)
    (hn : t.nrDentry = s.nrDentry) (hr : t.rootDentry = s.rootDentry) (hm : t.mountTable = s.mountTable)
    (hi : s.nrInode ≤ t.nrInode) : Wf t := by
  have hsub : ∀ d, t.subdirs d = s.subdirs d := fun d => (hd d).1
  have hpar : ∀ d, t.parent d = s.parent d := fun d => (hd d).2.1
  have hino : ∀ d, t.inode d = s.inode d := fun d => (hd d).2.2
  obtain ⟨h1, h2, h3, h4, h5, h6, h7⟩ := hs
  refine ⟨?_, ?_, ?_, ?_, ?_, ?_, fun d i hlt h => Nat.lt_of_lt_of_le (h7 d i ?_ ?_) hi⟩
  all_goals simp only [hsub, hpar, hino, hn, hr, hm] at *
  all_goals assumption

theorem Wf.mem (hs : Wf s) (as : List Bool) : Wf (withMem s as) :=
  hs.congr (fun _ => ⟨rfl, rfl, rfl⟩) rfl rfl rfl (Nat.le_refl _)

/-! ### One negative dentry more -/

/-- The new dentry is the first child of its parent, and nothing else changes. -/
theorem dentries_addDentry (hp : p < s.nrDentry) (v : Nat) : (addDentry s p n).dentries v =
    if v = s.nrDentry then ⟨n, p, none, []⟩
    else { s.dentries v with dSubdirs := if v = p then s.nrDentry :: s.subdirs p else s.subdirs v } := by
  have hne : s.nrDentry ≠ p := Nat.ne_of_gt hp
  by_cases hv : v = s.nrDentry
  · rw [if_pos hv, hv]
    simp [addDentry, Fs.setDentry, Function.update_of_ne hne]
  · rw [if_neg hv]
    by_cases hvp : v = p
    · rw [if_pos hvp, hvp]
      simp [addDentry, Fs.setDentry, Fs.subdirs, Function.update_of_ne hne.symm]
    · rw [if_neg hvp]
      simp [addDentry, Fs.setDentry, Fs.subdirs, Function.update_of_ne hv, Function.update_of_ne hvp]

theorem parent_addDentry (hp : p < s.nrDentry) (v : Nat) :
    (addDentry s p n).parent v = if v = s.nrDentry then p else s.parent v := by
  rw [Fs.parent, dentries_addDentry hp]
  split <;> rfl

theorem inode_addDentry (hp : p < s.nrDentry) (v : Nat) :
    (addDentry s p n).inode v = if v = s.nrDentry then none else s.inode v := by
  rw [Fs.inode, dentries_addDentry hp]
  split <;> rfl

theorem name_addDentry (hp : p < s.nrDentry) (v : Nat) :
    (addDentry s p n).name v = if v = s.nrDentry then n else s.name v := by
  rw [Fs.name, dentries_addDentry hp]
  split <;> rfl

theorem subdirs_addDentry (hp : p < s.nrDentry) (v : Nat) : (addDentry s p n).subdirs v =
    if v = s.nrDentry then [] else if v = p then s.nrDentry :: s.subdirs p else s.subdirs v := by
  rw [Fs.subdirs, dentries_addDentry hp]
  split <;> rfl

theorem Wf.add (hs : Wf s) (hp : p < s.nrDentry) (n : Name) : Wf (addDentry s p n) where
  child := by
    intro d c hc
    rw [subdirs_addDentry hp] at hc
    rw [parent_addDentry hp]
    show _ ∧ _ ∧ c < s.nrDentry + 1
    split at hc
    · cases hc
    · rename_i hd
      split at hc
      · rename_i hdp
        subst hdp
        rcases List.mem_cons.1 hc with rfl | hc
        · rw [if_pos rfl]
          omega
        · obtain ⟨h1, h2, h3⟩ := hs.child d c hc
          rw [if_neg (Nat.ne_of_lt h3)]
          omega
      · obtain ⟨h1, h2, h3⟩ := hs.child d c hc
        rw [if_neg (Nat.ne_of_lt h3)]
        omega
  nodup := by
    intro d
    rw [subdirs_addDentry hp]
    split
    · exact List.nodup_nil
    · split
      · refine List.nodup_cons.2 ⟨fun h => ?_, hs.nodup p⟩
        exact absurd (hs.child p _ h).2.2 (Nat.lt_irrefl _)
      · exact hs.nodup d
  parent_lt := by
    intro d hd
    rw [parent_addDentry hp]
    show _ < s.nrDentry + 1
    split
    · omega
    · rename_i hne
      have := hs.parent_lt d (Nat.lt_of_le_of_ne (Nat.lt_succ_iff.1 hd) hne)
      omega
  root := by
    refine ⟨Nat.lt_succ_of_lt hs.root.1, ?_⟩
    rw [parent_addDentry hp]
    exact (if_neg (Nat.ne_of_lt hs.root.1)).trans hs.root.2
  mount := by
    intro m hm
    obtain ⟨h1, h2, h3⟩ := hs.mount m hm
    refine ⟨Nat.lt_succ_of_lt h1, Nat.lt_succ_of_lt h2, ?_⟩
    rw [parent_addDentry hp, if_neg (Nat.ne_of_lt h2), h3]
  positive := by
    intro d hd hpos
    rw [inode_addDentry hp] at hpos
    split at hpos
    · exact absurd rfl hpos
    · rename_i hne
      have hlt : d < s.nrDentry := Nat.lt_of_le_of_ne (Nat.lt_succ_iff.1 hd) hne
      rw [parent_addDentry hp, if_neg hne, inode_addDentry hp, if_neg (Nat.ne_of_lt (hs.parent_lt d hlt))]
      exact hs.positive d hlt hpos
  inode_lt := by
    intro d i hd h
    rw [inode_addDentry hp] at h
    split at h
    · cases h
    · rename_i hne
      exact hs.inode_lt d i (Nat.lt_of_le_of_ne (Nat.lt_succ_iff.1 hd) hne) h

/-- An edge that is not the new entry's is as before. -/
theorem Wf.edge_addDentry_of_ne (hs : Wf s) (hp : p < s.nrDentry) (hv : v < s.nrDentry) (h : (v, m) ≠ (p, n)) :
    edge (addDentry s p n) v m = edge s v m := by
  have hlookup : dLookup (addDentry s p n) v m = dLookup s v m := by
    unfold dLookup
    have hold : ∀ c ∈ s.subdirs v, decide ((addDentry s p n).name c = m) = decide (s.name c = m) := by
      intro c hc
      rw [name_addDentry hp, if_neg (Nat.ne_of_lt (hs.child v c hc).2.2)]
    rw [subdirs_addDentry hp, if_neg (Nat.ne_of_lt hv)]
    by_cases hvp : v = p
    · subst hvp
      have hnm : ¬n = m := fun hnm => h (by rw [hnm])
      rw [if_pos rfl, List.find?_cons_of_neg (by simpa [name_addDentry hp] using hnm)]
      exact List.find?_congr hold
    · rw [if_neg hvp]
      exact List.find?_congr hold
  unfold edge
  rw [hlookup, parent_addDentry hp, if_neg (Nat.ne_of_lt hv)]
  rfl

theorem Wf.edge_addDentry_new (hs : Wf s) (hp : p < s.nrDentry) (hn : Proper n) :
    edge (addDentry s p n) p n = some s.nrDentry := by
  have hlookup : dLookup (addDentry s p n) p n = some s.nrDentry := by
    rw [dLookup, subdirs_addDentry hp, if_neg (Nat.ne_of_lt hp), if_pos rfl]
    exact List.find?_cons_of_pos (by simp [name_addDentry hp])
  rw [edge_of_proper hn, hlookup]
  exact congrArg some (hs.crossMount_new (Nat.le_refl _))

/-! ### An inode for a dentry, an entry less -/

theorem dentries_dInstantiate (s : Fs) (d : Nat) (i : Option Nat) (v : Nat) : (dInstantiate s d i).dentries v =
    { s.dentries v with dInode := if v = d then i else s.inode v } := by
  unfold dInstantiate Fs.setDentry
  by_cases hv : v = d
  · rw [if_pos hv, hv]
    exact Function.update_self _ _ _
  · rw [if_neg hv]
    exact Function.update_of_ne hv _ _

theorem inode_dInstantiate (s : Fs) (d : Nat) (i : Option Nat) (v : Nat) :
    (dInstantiate s d i).inode v = if v = d then i else s.inode v := by
  rw [Fs.inode, dentries_dInstantiate]

theorem edge_dInstantiate (s : Fs) (d : Nat) (i : Option Nat) : edge (dInstantiate s d i) = edge s := by
  funext v n
  have hname : (dInstantiate s d i).name = s.name := by
    funext v
    rw [Fs.name, dentries_dInstantiate]
    rfl
  rw [edge, edge, dLookup, dLookup, hname, Fs.subdirs, Fs.parent, dentries_dInstantiate]
  rfl

theorem dentries_listDelInit (s : Fs) (d v : Nat) : (listDelInit s d).dentries v =
    { s.dentries v with dSubdirs := if v = s.parent d then (s.subdirs v).erase d else s.subdirs v } := by
  unfold listDelInit Fs.setDentry
  by_cases hv : v = s.parent d
  · rw [if_pos hv, hv]
    exact Function.update_self _ _ _
  · rw [if_neg hv]
    exact Function.update_of_ne hv _ _

theorem subdirs_listDelInit (s : Fs) (d v : Nat) :
    (listDelInit s d).subdirs v = if v = s.parent d then (s.subdirs v).erase d else s.subdirs v := by
  rw [Fs.subdirs, dentries_listDelInit]

theorem parent_listDelInit (s : Fs) (d v : Nat) : (listDelInit s d).parent v = s.parent v := by
  rw [Fs.parent, dentries_listDelInit]
  rfl

theorem inode_listDelInit (s : Fs) (d v : Nat) : (listDelInit s d).inode v = s.inode v := by
  rw [Fs.inode, dentries_listDelInit]
  rfl

theorem name_listDelInit (s : Fs) (d v : Nat) : (listDelInit s d).name v = s.name v := by
  rw [Fs.name, dentries_listDelInit]
  rfl

end Vfs
end Pico
