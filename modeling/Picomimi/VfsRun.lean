import Picomimi.VfsTree
/-!
# VfsRun — every call keeps the shape of the tree

A call is a sequence of small changes (`Edit`): a negative dentry more, an inode for a dentry, an entry taken out of its list,
a mount.  What each of them keeps (`Edit.wf`), every run of calls keeps (`wf_of_run`).
-/
namespace Pico
namespace Vfs

open Lib

variable {s t u : Fs} {c d e i p v : Nat} {m n : Name} {q : Nat × Name} {P : Prop}

/-- A dentry gets an inode, in a directory that has one. -/
theorem Wf.fill (hs : Wf s) (hp : s.inode (s.parent d) ≠ none)
    (ht : t.dentries = s.dentries ∧ t.nrDentry = s.nrDentry ∧ t.rootDentry = s.rootDentry ∧ t.mountTable = s.mountTable)
    (hi : s.nrInode ≤ t.nrInode) (hlt : i < t.nrInode) : Wf (dInstantiate t d (some i)) := by
  obtain ⟨hde, hnr, hroot, hmount⟩ := ht
  have hsub : ∀ v, (dInstantiate t d (some i)).subdirs v = s.subdirs v := by
    intro v
    rw [Fs.subdirs, dentries_dInstantiate, hde]
    rfl
  have hpar : ∀ v, (dInstantiate t d (some i)).parent v = s.parent v := by
    intro v
    rw [Fs.parent, dentries_dInstantiate, hde]
    rfl
  have hino : ∀ v, (dInstantiate t d (some i)).inode v = if v = d then some i else s.inode v := by
    intro v
    rw [inode_dInstantiate, Fs.inode, hde]
    rfl
  constructor
  · intro v c hc
    rw [hsub] at hc
    rw [hpar]
    exact hnr.symm ▸ hs.child v c hc
  · intro v
    rw [hsub]
    exact hs.nodup v
  · intro v hv
    rw [hpar]
    exact hnr.symm ▸ hs.parent_lt v (hnr ▸ hv)
  · refine ⟨?_, ?_⟩
    · show t.rootDentry < t.nrDentry
      rw [hroot, hnr]
      exact hs.root.1
    · rw [hpar]
      show s.parent t.rootDentry = t.rootDentry
      rw [hroot]
      exact hs.root.2
  · intro m hm
    rw [hpar]
    exact hnr.symm ▸ hs.mount m (hmount ▸ hm)
  · intro v hv hpos
    rw [hpar, hino]
    split
    · simp
    · rw [hino] at hpos
      split at hpos
      · rename_i hvd
        rw [hvd]
        exact hp
      · exact hs.positive v (hnr ▸ hv) hpos
  · intro v j hv h
    rw [hino] at h
    split at h
    · cases h
      exact hlt
    · exact Nat.lt_of_lt_of_le (hs.inode_lt v j (hnr ▸ hv) h) hi

/-- An entry is taken out of its list. -/
theorem Wf.unlinked (hs : Wf s) (d : Nat) : Wf (listDelInit s d) := by
  have hmem : ∀ v c, c ∈ (listDelInit s d).subdirs v → c ∈ s.subdirs v := by
    intro v c hc
    rw [subdirs_listDelInit] at hc
    split at hc
    · exact List.mem_of_mem_erase hc
    · exact hc
  refine ⟨?_, ?_, ?_, ⟨hs.root.1, ?_⟩, ?_, ?_, ?_⟩
  · intro v c hc
    rw [parent_listDelInit]
    exact hs.child v c (hmem v c hc)
  · intro v
    rw [subdirs_listDelInit]
    split
    · exact (hs.nodup v).erase d
    · exact hs.nodup v
  · intro v hv
    rw [parent_listDelInit]
    exact hs.parent_lt v hv
  · rw [parent_listDelInit]
    exact hs.root.2
  · intro m hm
    rw [parent_listDelInit]
    exact hs.mount m hm
  · intro v hv
    rw [parent_listDelInit, inode_listDelInit, inode_listDelInit]
    exact hs.positive v hv
  · intro v j hv
    rw [inode_listDelInit]
    exact hs.inode_lt v j hv

/-! ## The changes of the tree -/

theorem Wf.setInode (hs : Wf s) (i : Nat) (v : Inode) : Wf (s.setInode i v) :=
  hs.congr (fun _ => ⟨rfl, rfl, rfl⟩) rfl rfl rfl (Nat.le_refl _)

theorem Wf.dropNlink (hs : Wf s) (i : Nat) : Wf (dropNlink s i) := hs.setInode _ _

/-- The renamed dentry keeps its place in the numbering; only its list and its name change. -/
theorem Wf.setName (hs : Wf s) (d : Nat) (n : Name) : Wf (s.setDentry d { s.dentries d with dName := n }) := by
  refine hs.congr (fun v => ?_) rfl rfl rfl (Nat.le_refl _)
  by_cases hv : v = d
  · simp [Fs.subdirs, Fs.parent, Fs.inode, Fs.setDentry, hv]
  · simp [Fs.subdirs, Fs.parent, Fs.inode, Fs.setDentry, Function.update_of_ne hv]

/-- A new root, its own parent. -/
theorem Wf.addRoot (hs : Wf s) (n : Name) (hi : i < s.nrInode) :
    Wf { s.setDentry s.nrDentry ⟨n, s.nrDentry, some i, []⟩ with nrDentry := s.nrDentry + 1 } := by
  have hde : ∀ v, (s.setDentry s.nrDentry ⟨n, s.nrDentry, some i, []⟩).dentries v =
      if v = s.nrDentry then ⟨n, s.nrDentry, some i, []⟩ else s.dentries v := by
    intro v
    exact Function.update_apply _ _ _ _
  have hlt : ∀ v, v < s.nrDentry + 1 → v ≠ s.nrDentry → v < s.nrDentry := fun v h1 h2 =>
    Nat.lt_of_le_of_ne (Nat.lt_succ_iff.1 h1) h2
  constructor
  all_goals simp only [Fs.subdirs, Fs.parent, Fs.inode, hde]
  · intro v c hc
    split at hc
    · cases hc
    · obtain ⟨h1, h2, h3⟩ := hs.child v c hc
      rw [if_neg (Nat.ne_of_lt h3)]
      exact ⟨h1, h2, Nat.lt_succ_of_lt h3⟩
  · intro v
    split
    · exact List.nodup_nil
    · exact hs.nodup v
  · intro v hv
    split
    · exact Nat.lt_succ_self _
    · rename_i hne
      exact Nat.lt_succ_of_lt (hs.parent_lt v (hlt v hv hne))
  · refine ⟨Nat.lt_succ_of_lt hs.root.1, ?_⟩
    exact (congrArg Dentry.dParent (if_neg (Nat.ne_of_lt hs.root.1))).trans hs.root.2
  · intro m hm
    obtain ⟨h1, h2, h3⟩ := hs.mount m hm
    refine ⟨Nat.lt_succ_of_lt h1, Nat.lt_succ_of_lt h2, ?_⟩
    rw [if_neg (Nat.ne_of_lt h2)]
    exact h3
  · intro v hv hpos
    by_cases hne : v = s.nrDentry
    · rw [if_pos hne]
      simp
    · rw [if_neg hne] at hpos ⊢
      have hp : (s.dentries v).dParent < s.nrDentry := hs.parent_lt v (hlt v hv hne)
      rw [if_neg (Nat.ne_of_lt hp)]
      exact hs.positive v (hlt v hv hne) hpos
  · intro v j hv h
    split at h
    · cases h
      exact hi
    · rename_i hne
      exact hs.inode_lt v j (hlt v hv hne) h

/-- No entry of its directory that has an inode bears the name of the dentry. -/
def Alone (s : Fs) (d : Nat) : Prop := ∀ c ∈ s.subdirs (s.parent d), s.name c = s.name d → s.inode c = none

/-- The name is free in the directory. -/
def Free (s : Fs) (p : Nat) (n : Name) : Prop := ∀ c ∈ s.subdirs p, s.name c = n → s.inode c = none

/-- **What a look-up changes**: a negative dentry more. -/
inductive Grow : Fs → Fs → Prop
  | mem (s : Fs) (as : List Bool) : Grow s (withMem s as)
  | add (s : Fs) (p : Nat) (n : Name) (hp : p < s.nrDentry) : Grow s (addDentry s p n)

abbrev Grows : Fs → Fs → Prop := Relation.ReflTransGen Grow

/-- **One change of the tree**, and what holds when it is made; with `P`, that the name of a new entry is its own. -/
inductive Edit (P : Prop) : Fs → Fs → Prop
  | grow (s t : Fs) (h : Grow s t) : Edit P s t
  | newInode (s : Fs) : Edit P s { s.setInode s.nrInode blankInode with nrInode := s.nrInode + 1 }
  | setInode (s : Fs) (i : Nat) (v : Inode) (hi : ∀ d, d < s.nrDentry → s.inode d ≠ some i)
      (hv : v.iPrivate = .ramfs → v.iSize = 0) : Edit P s (s.setInode i v)
  | nlink (s : Fs) (i k : Nat) : Edit P s (s.setInode i { s.inodes i with iNlink := k })
  | counters (s : Fs) (a b c d e f : Nat) : Edit P s { s with
      createIno := a
      mkdirIno := b
      mknodIno := c
      symlinkIno := d
      vfsSymlinkIno := e
      vfsMknodIno := f }
  | fill (s : Fs) (d i : Nat) (hd : s.inode d = none) (hp : s.inode (s.parent d) ≠ none) (hi : i < s.nrInode)
      (ha : P → Alone s d) : Edit P s (dInstantiate s d (some i))
  | unlist (s : Fs) (d : Nat) : Edit P s (listDelInit s d)
  | setName (s : Fs) (d : Nat) (n : Name) (hd : ∀ v, d ∉ s.subdirs v) :
      Edit P s (s.setDentry d { s.dentries d with dName := n })
  | addRoot (s : Fs) (n : Name) (i : Nat) (hi : i < s.nrInode) (hdir : sIsdir (s.inodes i).iMode = true) :
      Edit P s { s.setDentry s.nrDentry ⟨n, s.nrDentry, some i, []⟩ with nrDentry := s.nrDentry + 1 }
  | mount (s : Fs) (x r i : Nat) (hx : x < r) (hr : r < s.nrDentry) (hpar : s.parent r = r) (hi : s.inode r = some i)
      (hdir : sIsdir (s.inodes i).iMode = true) : Edit P s { s with mountTable := s.mountTable ++ [(x, r)] }

/-- Changes one after another. -/
abbrev Edits (P : Prop) : Fs → Fs → Prop := Relation.ReflTransGen (Edit P)

/-- A dentry that was taken out is in no list. -/
theorem Wf.not_mem_listDelInit (hs : Wf s) (d v : Nat) : d ∉ (listDelInit s d).subdirs v := by
  rw [subdirs_listDelInit]
  split
  · exact (hs.nodup v).not_mem_erase
  · rename_i hv
    exact fun hd => hv (hs.child v d hd).1.symm

theorem free_of_dLookup (h : dLookup s p n = none) : Free s p n := by
  intro c hc hn
  have hno := List.find?_eq_none.1 h c hc
  exact absurd (decide_eq_true hn) hno

/-- A free name stays free through look-ups. -/
theorem Grow.free (h : Grow s t) (hf : Free s p n) : Free t p n := by
  cases h with
  | mem as => exact hf
  | add q m hq =>
    intro c hc hn
    rw [inode_addDentry hq]
    split
    · rfl
    · rename_i hne
      rw [name_addDentry hq, if_neg hne] at hn
      rw [subdirs_addDentry hq] at hc
      split at hc
      · cases hc
      · split at hc
        · rename_i heq
          subst heq
          exact hf c ((List.mem_cons.1 hc).resolve_left hne) hn
        · exact hf c hc hn

theorem Grows.free (h : Grows s t) (hf : Free s p n) : Free t p n := by
  induction h with
  | refl => exact hf
  | tail _ h ih => exact h.free ih

theorem Edit.mem (s : Fs) (as : List Bool) : Edit P s (withMem s as) := .grow _ _ (.mem s as)

theorem Grow.wf (h : Grow s t) (hs : Wf s) : Wf t := by
  cases h with
  | mem as => exact hs.mem as
  | add p n hp => exact hs.add hp n

theorem Grows.edits (h : Grows s t) : Edits P s t := Relation.ReflTransGen.mono Edit.grow s t h

theorem Edit.wf (h : Edit P s t) (hs : Wf s) : Wf t := by
  cases h with
  | grow _ h => exact h.wf hs
  | newInode => exact hs.congr (fun _ => ⟨rfl, rfl, rfl⟩) rfl rfl rfl (Nat.le_succ _)
  | setInode i v _ _ => exact hs.setInode i v
  | nlink i k => exact hs.setInode i _
  | counters a b c d e f => exact hs.congr (fun _ => ⟨rfl, rfl, rfl⟩) rfl rfl rfl (Nat.le_refl _)
  | fill d i _ hp hi _ => exact hs.fill hp ⟨rfl, rfl, rfl, rfl⟩ (Nat.le_refl _) hi
  | unlist d => exact hs.unlinked d
  | setName d n _ => exact hs.setName d n
  | addRoot n i hi _ => exact hs.addRoot n hi
  | mount x r i hx hr hpar _ _ =>
    refine { hs with mount := fun m hm => ?_ }
    rcases List.mem_append.1 hm with hm | hm
    · exact hs.mount m hm
    · rw [List.mem_singleton.1 hm]
      exact ⟨Nat.lt_trans hx hr, hr, hpar⟩

theorem Edits.wf (h : Edits P s t) (hs : Wf s) : Wf t := by
  induction h with
  | refl => exact hs
  | tail _ h ih => exact h.wf ih

theorem Grows.wf (h : Grows s t) (hs : Wf s) : Wf t := Edits.wf (h.edits : Edits False s t) hs

theorem Grows.le (h : Grows s t) : s.nrDentry ≤ t.nrDentry := by
  induction h with
  | refl => exact Nat.le_refl _
  | tail _ h ih =>
    cases h with
    | mem => exact ih
    | add => exact Nat.le_succ_of_le ih

/-! ## Path resolution -/

/-- **What a look-up does**: it adds negative dentries, and its answer is a dentry. -/
structure Kept (s : Fs) (r : Except Int Nat × Fs) : Prop where
  grows : Grows s r.2
  lt : ∀ e, r.1 = .ok e → e < r.2.nrDentry

theorem Kept.after (h : Grows s t) {r : Except Int Nat × Fs} (hr : Kept t r) : Kept s r := ⟨h.trans hr.grows, hr.lt⟩

theorem Kept.error (h : Grows s t) (err : Int) : Kept s (.error err, t) := ⟨h, fun _ he => nomatch he⟩

theorem Kept.ok (hd : d < s.nrDentry) : Kept s (.ok d, s) :=
  ⟨.refl, fun e he => by
    cases he
    exact hd⟩

theorem grows_mem (s : Fs) (as : List Bool) : Grows s (withMem s as) := .single (.mem s as)

theorem kept_missed (hq : q.1 < s.nrDentry) : Kept s (missed s q) := by
  have hmem := grows_mem s (leftFor s.kmalloc q.2)
  unfold missed
  split
  · exact Kept.error (hmem.tail (.add _ q.1 q.2 hq)) _
  · exact Kept.error hmem _

theorem Wf.walkTarget : ∀ (cs : List Name) {s : Fs} {d : Nat}, Wf s → d < s.nrDentry → Kept s (walkTarget s d cs)
  | [], s, d, _, hd => Kept.ok hd
  | n :: rest, s, d, hs, hd => by
    unfold Vfs.walkTarget
    cases hc : dLookup s d n with
    | some c => exact Wf.walkTarget rest hs (hs.child d c (dLookup_mem hc).1).2.2
    | none =>
      have hmem := grows_mem s (leftFor s.kmalloc n)
      have hnew : (addDentry (withMem s (leftFor s.kmalloc n)) d n).inode s.nrDentry = none := inode_addDentry_new _ _ _
      simp only [dAlloc_eq]
      split
      · cases roomFor s.kmalloc n with
        | false => exact Kept.error hmem _
        | true =>
          simp only [if_true]
          rw [ramfsLookup_of_negative hnew]
          have hadd : Grows s (addDentry (withMem s (leftFor s.kmalloc n)) d n) := hmem.tail (.add _ d n hd)
          exact (Wf.walkTarget rest (hadd.wf hs) (Nat.lt_succ_self _)).after hadd
      · exact Kept.error .refl _

theorem Wf.followLinks : ∀ (fuel : Nat) {s : Fs} {d : Nat}, Wf s → d < s.nrDentry → Kept s (followLinks fuel s d)
  | 0, s, d, _, hd => by
    unfold Vfs.followLinks
    split
    · exact Kept.error .refl _
    · exact Kept.ok hd
  | fuel + 1, s, d, hs, hd => by
    unfold Vfs.followLinks
    split
    · simp only
      split
      · split
        · have hw := Wf.walkTarget (targetComponents ‹Name›) hs hs.root.1
          split
          · rename_i h
            rw [h] at hw
            exact Kept.error hw.grows _
          · rename_i h
            rw [h] at hw
            exact (Wf.followLinks fuel (Grows.wf hw.grows hs) (hw.lt _ rfl)).after hw.grows
        · exact Kept.error .refl _
      · exact Kept.error .refl _
    · exact Kept.ok hd

theorem Wf.walkPath (hs : Wf s) (b : Bool) (cs : List Name) : Kept s (walkPath b s s.rootDentry cs) := by
  rw [walkPath_eq]
  cases h : walk (edge s) s.rootDentry (walked b cs) with
  | ok e => exact Kept.ok (hs.resolve_lt h)
  | error q => exact kept_missed (hs.missed_lt h)

theorem Wf.kernPath (hs : Wf s) (path : List Char) (flags : LookupFlags) : Kept s (kernPath s path flags) := by
  have hw := hs.walkPath flags.parent (components path)
  unfold Vfs.kernPath
  split
  · rename_i h
    rw [h] at hw
    exact Kept.error hw.grows _
  · rename_i h
    rw [h] at hw
    split
    · exact (Wf.followLinks 8 (Grows.wf hw.grows hs) (hw.lt _ rfl)).after hw.grows
    · exact hw

/-- A path is looked up, and what comes after is changes too. -/
theorem Wf.kernPath_then (hs : Wf s) {path : List Char} {flags : LookupFlags} {r : Except Int Nat}
    (h : Vfs.kernPath s path flags = (r, t)) :
    Wf t ∧ Edits P s t ∧ s.nrDentry ≤ t.nrDentry ∧ ∀ e, r = .ok e → e < t.nrDentry := by
  have hk := hs.kernPath path flags
  rw [h] at hk
  have hst : Grows s t := hk.grows
  exact ⟨hst.wf hs, hst.edits, hst.le, hk.lt⟩

/-! ## The calls -/

section Makers

variable (hs : Wf s)
include hs

/-- The fields of an inode no dentry has yet. -/
theorem Wf.edits_setInode (hu : Edits P s u) (hde : u.dentries = s.dentries) (hnr : u.nrDentry = s.nrDentry) (v : Inode)
    (hv : v.iPrivate = .ramfs → v.iSize = 0) : Edits P s (u.setInode s.nrInode v) := by
  refine hu.tail (.setInode u _ v (fun d hd hc => ?_) hv)
  rw [Fs.inode, hde] at hc
  exact Nat.lt_irrefl _ (hs.inode_lt d _ (hnr ▸ hd) hc)

variable (hd : s.inode d = none) (hp : s.inode (s.parent d) ≠ none) (ha : P → Alone s d)
include hd hp ha

omit hs in
/-- The inode goes to the dentry it was made for. -/
theorem edits_fill (hu : Edits P s u) (hde : u.dentries = s.dentries) (hi : i < u.nrInode) :
    Edits P s (dInstantiate u d (some i)) := by
  refine hu.tail (.fill u d i ?_ ?_ hi fun h => ?_)
  · rw [Fs.inode, hde]
    exact hd
  · rw [Fs.parent, Fs.inode, hde]
    exact hp
  · unfold Alone Fs.subdirs Fs.parent Fs.name Fs.inode
    rw [hde]
    exact ha h

theorem Wf.ramfsCreate_edits (mode : Nat) : Edits P s (ramfsCreate s d mode).2 := by
  simp only [Vfs.ramfsCreate, newInode_eq]
  cases answer s.kmalloc with
  | false => exact .single (.mem s _)
  | true =>
    have hnew := (Relation.ReflTransGen.single (Edit.mem (P := P) s s.kmalloc.tail)).tail (Edit.newInode _)
    simp only [if_true, kmallocOk_eq]
    generalize answer _ = room
    cases room with
    | false => exact hnew.tail (.mem _ _)
    | true =>
      exact edits_fill hd hp ha ((hs.edits_setInode (hnew.tail (.mem _ _)) rfl rfl _ fun _ => rfl).tail (.counters _ _ _ _ _ _ _)) rfl
        (Nat.lt_succ_self _)

theorem Wf.ramfsMkdir_edits (dir mode : Nat) : Edits P s (ramfsMkdir s dir d mode).2 := by
  simp only [Vfs.ramfsMkdir, newInode_eq]
  cases answer s.kmalloc with
  | false => exact .single (.mem s _)
  | true =>
    have hnew := (Relation.ReflTransGen.single (Edit.mem (P := P) s s.kmalloc.tail)).tail (Edit.newInode _)
    exact edits_fill hd hp ha (((hs.edits_setInode hnew rfl rfl _ fun h => by cases h).tail (.counters _ _ _ _ _ _ _)).tail (.nlink _ dir _)) rfl
      (Nat.lt_succ_self _)

theorem Wf.ramfsMknod_edits (mode dev : Nat) : Edits P s (ramfsMknod s d mode dev).2 := by
  simp only [Vfs.ramfsMknod, newInode_eq]
  cases answer s.kmalloc with
  | false => exact .single (.mem s _)
  | true =>
    have hnew := (Relation.ReflTransGen.single (Edit.mem (P := P) s s.kmalloc.tail)).tail (Edit.newInode _)
    exact edits_fill hd hp ha ((hs.edits_setInode hnew rfl rfl _ fun h => by cases h).tail (.counters _ _ _ _ _ _ _)) rfl (Nat.lt_succ_self _)

theorem Wf.ramfsSymlink_edits (symname : Name) : Edits P s (ramfsSymlink s d symname).2 := by
  simp only [Vfs.ramfsSymlink, newInode_eq]
  cases answer s.kmalloc with
  | false => exact .single (.mem s _)
  | true =>
    have hnew := (Relation.ReflTransGen.single (Edit.mem (P := P) s s.kmalloc.tail)).tail (Edit.newInode _)
    simp only [if_true, kmallocOk_eq]
    generalize answer _ = room
    cases room with
    | false => exact hnew.tail (.mem _ _)
    | true =>
      exact edits_fill hd hp ha ((hs.edits_setInode (hnew.tail (.mem _ _)) rfl rfl _ fun h => by cases h).tail (.counters _ _ _ _ _ _ _)) rfl
        (Nat.lt_succ_self _)

end Makers

/-- The makers get the inode of the new dentry's parent. -/
theorem Wf.vfsMkdir_edits (hs : Wf s) (hd : s.inode d = none) (ha : P → Alone s d) (mode : Nat) :
    Edits P s (vfsMkdir s (s.inode (s.parent d)) d mode).2 := by
  unfold Vfs.vfsMkdir
  cases hdir : s.inode (s.parent d) with
  | none => exact .refl
  | some dir =>
    have hm := hs.ramfsMkdir_edits hd (by simp [hdir]) ha dir (mode ||| sIfdir)
    simp only
    split
    · exact .refl
    · split
      · rename_i h
        rw [h] at hm
        split
        · exact (hm.tail (.nlink _ _ _)).tail (.nlink _ dir _)
        · exact hm.tail (.nlink _ dir _)
      · rename_i h
        rw [h] at hm
        exact hm

theorem Wf.vfsSymlink_edits (hs : Wf s) (hd : s.inode d = none) (ha : P → Alone s d) (oldname : Name) :
    Edits P s (vfsSymlink s (s.inode (s.parent d)) d oldname).2 := by
  unfold Vfs.vfsSymlink
  cases hdir : s.inode (s.parent d) with
  | none => exact .refl
  | some dir =>
    have hp : s.inode (s.parent d) ≠ none := by simp [hdir]
    simp only
    split
    · exact hs.ramfsSymlink_edits hd hp ha oldname
    · rw [newInode_eq]
      cases answer s.kmalloc with
      | false => exact .single (.mem s _)
      | true =>
        have hnew := (Relation.ReflTransGen.single (Edit.mem (P := P) s s.kmalloc.tail)).tail (Edit.newInode _)
        have hset := hs.edits_setInode hnew rfl rfl ⟨sIflnk ||| 0x1FF, s.vfsSymlinkIno, 1, 0, 0, .none, .none, .null⟩ nofun
        simp only [if_true, kmallocOk_eq]
        generalize answer _ = room
        cases room with
        | false => exact (hset.tail (.counters _ _ _ _ _ _ _)).tail (.mem _ _)
        | true =>
          exact edits_fill hd hp ha (hs.edits_setInode ((hset.tail (.counters _ _ _ _ _ _ _)).tail (.mem _ _)) rfl rfl _ nofun) rfl
            (Nat.lt_succ_self _)

theorem Wf.vfsMknod_edits (hs : Wf s) (hd : s.inode d = none) (ha : P → Alone s d) (mode dev : Nat) :
    Edits P s (vfsMknod s (s.inode (s.parent d)) d mode dev).2 := by
  unfold Vfs.vfsMknod
  cases hdir : s.inode (s.parent d) with
  | none => exact .refl
  | some dir =>
    have hp : s.inode (s.parent d) ≠ none := by simp [hdir]
    simp only
    split
    · exact hs.ramfsMknod_edits hd hp ha mode dev
    · rw [newInode_eq]
      cases answer s.kmalloc with
      | false => exact .single (.mem s _)
      | true =>
        have hnew := (Relation.ReflTransGen.single (Edit.mem (P := P) s s.kmalloc.tail)).tail (Edit.newInode _)
        exact edits_fill hd hp ha ((hs.edits_setInode hnew rfl rfl _ fun h => by cases h).tail (.counters _ _ _ _ _ _ _)) rfl (Nat.lt_succ_self _)

theorem Wf.vfsLink_edits (hs : Wf s) (hc : c < s.nrDentry) (hd : s.inode d = none) (ha : P → Alone s d) :
    Edits P s (vfsLink s c (s.inode (s.parent d)) d).2 := by
  unfold Vfs.vfsLink
  split
  · rename_i i dir hi hdir
    split
    · exact .refl
    · have hp : s.inode (s.parent d) ≠ none := by simp [hdir]
      exact (edits_fill hd hp ha .refl rfl (hs.inode_lt c i hc hi)).tail (.nlink _ i _)
  · exact .refl

theorem vfsRmdir_edits (s : Fs) (dir : Option Nat) (d : Nat) : Edits P s (vfsRmdir s dir d).2 := by
  unfold Vfs.vfsRmdir
  split
  · exact .refl
  · exact .refl
  · rename_i dir i _
    split
    · exact .refl
    · split
      · exact .refl
      · split
        · unfold ramfsRmdir
          split
          · exact .refl
          · exact ((Relation.ReflTransGen.single (.nlink s i _)).tail (.nlink _ i _)).tail (.nlink _ dir _)
        · exact (Relation.ReflTransGen.single (.unlist s d)).tail (.nlink _ i _)

theorem vfsUnlink_edits (s : Fs) (dir : Option Nat) (d : Nat) : Edits P s (vfsUnlink s dir d).2 := by
  unfold Vfs.vfsUnlink
  split
  · exact .refl
  · exact .refl
  · split
    · exact .refl
    · split
      · exact .single (.nlink s _ _)
      · exact (Relation.ReflTransGen.single (.unlist s d)).tail (.nlink _ _ _)

theorem Wf.vfsRename_edits (hs : Wf s) (oldDir : Option Nat) (oldD : Nat) (newDir : Option Nat) (newD : Nat) :
    Edits P s (vfsRename s oldDir oldD newDir newD).2 := by
  unfold Vfs.vfsRename
  split
  · simp only
    split
    · rename_i i _
      have hdrop : Edits P s (Vfs.dropNlink (listDelInit s newD) i) :=
        (Relation.ReflTransGen.single (.unlist s newD)).tail (.nlink _ i _)
      exact (hdrop.tail (.unlist _ oldD)).tail (.setName _ oldD _ (Wf.not_mem_listDelInit (Edits.wf hdrop hs) oldD))
    · exact (Relation.ReflTransGen.single (.unlist s oldD)).tail (.setName _ oldD _ (hs.not_mem_listDelInit oldD))
  · exact .refl
  · exact .refl

theorem dAlloc_grows (hp : p < s.nrDentry) (n : Name) : Grows s (dAlloc s p n).2 := by
  have hmem := grows_mem s (leftFor s.kmalloc n)
  rw [dAlloc_eq]
  split
  · exact hmem.tail (.add _ p n hp)
  · exact hmem

/-- **A negative dentry for a maker**, and what it makes of it. -/
theorem dAlloc_edits (hp : p < s.nrDentry) (n : Name) :
    Edits P s (dAlloc s p n).2 ∧ ∀ e, (dAlloc s p n).1 = some e → e = s.nrDentry ∧ (dAlloc s p n).2.inode e = none ∧
      (dAlloc s p n).2.parent e = p ∧ (dAlloc s p n).2.inode p = s.inode p ∧ (dAlloc s p n).2.nrDentry = s.nrDentry + 1 := by
  refine ⟨(dAlloc_grows hp n).edits, ?_⟩
  have hp' : p < (withMem s (leftFor s.kmalloc n)).nrDentry := hp
  rw [dAlloc_eq]
  cases roomFor s.kmalloc n with
  | false => exact nofun
  | true =>
    intro e he
    cases he
    refine ⟨rfl, inode_addDentry_new _ _ _, ?_, ?_, rfl⟩
    · exact (parent_addDentry hp' _).trans (if_pos rfl)
    · exact (inode_addDentry hp' _).trans (if_neg (Nat.ne_of_lt hp))

/-- A new dentry, and then what makes it an entry. -/
theorem Wf.dAlloc_then (hs : Wf s) (hp : p < s.nrDentry) {n : Name} {r : Option Nat} (h : dAlloc s p n = (r, t)) :
    Wf t ∧ Edits P s t ∧ ∀ e, r = some e → e = s.nrDentry ∧ t.inode e = none ∧ t.parent e = p ∧ t.inode p = s.inode p ∧
      t.nrDentry = s.nrDentry + 1 := by
  obtain ⟨he, hd⟩ := dAlloc_edits hp n
  rw [h] at he hd
  exact ⟨he.wf hs, he, hd⟩

/-- The new dentry is alone where its name was free. -/
theorem alone_dAlloc (hp : p < s.nrDentry) (h : dAlloc s p n = (some e, t)) (hf : Free s p n) : Alone t e := by
  rw [dAlloc_eq] at h
  cases hroom : roomFor s.kmalloc n with
  | false =>
    rw [hroom] at h
    cases h
  | true =>
    rw [hroom] at h
    cases h
    have hadd := Grow.add (withMem s (leftFor s.kmalloc n)) p n hp
    intro c hc hn
    have hpar : (addDentry (withMem s (leftFor s.kmalloc n)) p n).parent s.nrDentry = p :=
      (parent_addDentry (s := withMem s (leftFor s.kmalloc n)) hp _).trans (if_pos rfl)
    have hname : (addDentry (withMem s (leftFor s.kmalloc n)) p n).name s.nrDentry = n :=
      (name_addDentry (s := withMem s (leftFor s.kmalloc n)) hp _).trans (if_pos rfl)
    rw [hpar] at hc
    exact hadd.free hf c hc (hn.trans hname)

theorem Wf.withNewDentry_edits (hs : Wf s) (path : List Char) {make : Fs → Option Nat → Nat → Int × Fs}
    (hmake : ∀ t d, Wf t → t.inode d = none → Alone t d → Edits P t (make t (t.inode (t.parent d)) d).2) :
    Edits P s (withNewDentry s path make).2 := by
  unfold Vfs.withNewDentry
  split
  · rename_i h
    exact (hs.kernPath_then h).2.1
  · rename_i parent t h
    obtain ⟨hwf, hst, -, hlt⟩ := hs.kernPath_then h
    split
    · exact hst
    · rename_i hnone
      split
      · rename_i ha
        exact hst.trans (hwf.dAlloc_then (hlt _ rfl) ha).2.1
      · rename_i d u ha
        obtain ⟨hwf', htu, hd⟩ := hwf.dAlloc_then (hlt _ rfl) ha
        obtain ⟨-, hneg, hpar, -⟩ := hd d rfl
        have hm := hmake u d hwf' hneg (alone_dAlloc (hlt _ rfl) ha (free_of_dLookup hnone))
        rw [hpar] at hm
        exact (hst.trans htu).trans hm

/-- Past its own check, `sys_mkdir` is like the other makers. -/
theorem sysMkdir_of_base {path : List Char} (h : baseName path ≠ []) (s : Fs) (mode : Nat) :
    sysMkdir s path mode = withNewDentry s path fun s dir d => vfsMkdir s dir d mode := by
  unfold sysMkdir withNewDentry
  simp only [if_neg h]

theorem Wf.sysMkdir_edits (hs : Wf s) (path : List Char) (mode : Nat) : Edits P s (sysMkdir s path mode).2 := by
  by_cases h : baseName path = []
  · unfold Vfs.sysMkdir
    split
    · rename_i hr
      exact (hs.kernPath_then hr).2.1
    · rename_i hr
      rw [if_pos h]
      exact (hs.kernPath_then hr).2.1
  · rw [sysMkdir_of_base h]
    exact hs.withNewDentry_edits path fun t d ht hneg ha => ht.vfsMkdir_edits hneg (fun _ => ha) mode

/-- Where `sys_link` makes the new name. -/
def linkParent (s : Fs) (oldpath newpath : List Char) : Option Nat :=
  match kernPath s oldpath lookupFollow with
  | (.error _, _) => none
  | (.ok _, s) => (kernPath s newpath lookupParent).1.toOption

theorem Wf.sysLink_edits (hs : Wf s) (oldpath newpath : List Char)
    (hf : P → ∀ p, linkParent s oldpath newpath = some p → Free s p (baseName newpath)) :
    Edits P s (sysLink s oldpath newpath).2 := by
  unfold Vfs.sysLink
  unfold linkParent at hf
  have hkept := hs.kernPath oldpath lookupFollow
  cases h : Vfs.kernPath s oldpath lookupFollow with
  | mk r t =>
    rw [h] at hf hkept
    have hst : Grows s t := hkept.grows
    cases r with
    | error err => exact hst.edits
    | ok oldD =>
      dsimp only at hf ⊢
      have hkept' := Wf.kernPath (hst.wf hs) newpath lookupParent
      cases h' : Vfs.kernPath t newpath lookupParent with
      | mk r' u =>
        rw [h'] at hf hkept'
        have hsu : Grows s u := hst.trans hkept'.grows
        cases r' with
        | error err => exact hsu.edits
        | ok parent =>
          dsimp only
          split
          · rename_i ha
            exact hsu.edits.trans ((hsu.wf hs).dAlloc_then (hkept'.lt _ rfl) ha).2.1
          · rename_i d w ha
            obtain ⟨hwf, huw, hd⟩ := (hsu.wf hs).dAlloc_then (hkept'.lt _ rfl) ha
            obtain ⟨-, hneg, hpar, -, hnr⟩ := hd d rfl
            have hold : oldD < w.nrDentry := by
              have h1 : oldD < t.nrDentry := hkept.lt _ rfl
              have h2 : t.nrDentry ≤ u.nrDentry := Grows.le hkept'.grows
              omega
            have hlink := hwf.vfsLink_edits (P := P) hold hneg fun hP =>
              alone_dAlloc (hkept'.lt _ rfl) ha (hsu.free (hf hP parent rfl))
            rw [hpar] at hlink
            exact (hsu.edits.trans huw).trans hlink

theorem Wf.sysRename_edits (hs : Wf s) (oldpath newpath : List Char) : Edits P s (sysRename s oldpath newpath).2 := by
  unfold Vfs.sysRename
  split
  · rename_i h
    exact (hs.kernPath_then h).2.1
  · rename_i oldD t h
    obtain ⟨hwf, hst, -, -⟩ := hs.kernPath_then h
    split
    · rename_i h'
      exact hst.trans (hwf.kernPath_then h').2.1
    · rename_i parent u h'
      obtain ⟨hwf', htu, -, hlt⟩ := hwf.kernPath_then h'
      split
      · rename_i ha
        exact (hst.trans htu).trans (hwf'.dAlloc_then (hlt _ rfl) ha).2.1
      · rename_i d w ha
        obtain ⟨hwf'', huw, -⟩ := hwf'.dAlloc_then (hlt _ rfl) ha
        exact ((hst.trans htu).trans huw).trans (hwf''.vfsRename_edits _ _ _ _)

theorem Wf.sysUnlink_edits (hs : Wf s) (path : List Char) : Edits P s (sysUnlink s path).2 := by
  unfold Vfs.sysUnlink
  split
  · rename_i h
    exact (hs.kernPath_then h).2.1
  · rename_i h
    exact (hs.kernPath_then h).2.1.trans (vfsUnlink_edits _ _ _)

theorem Wf.sysRmdir_edits (hs : Wf s) (path : List Char) : Edits P s (sysRmdir s path).2 := by
  unfold Vfs.sysRmdir
  split
  · rename_i h
    exact (hs.kernPath_then h).2.1
  · rename_i h
    split
    · exact (hs.kernPath_then h).2.1
    · exact (hs.kernPath_then h).2.1.trans (vfsRmdir_edits _ _ _)

theorem openDentry_edits (s : Fs) (d flags : Nat) : Edits P s (openDentry s d flags).2 := by
  unfold Vfs.openDentry
  split
  · exact .refl
  · split
    · exact .refl
    · rw [kmallocOk_eq]
      cases answer s.kmalloc with
      | false => exact .single (.mem s _)
      | true => exact .single (.mem s _)

theorem Wf.createParent (hs : Wf s) (path : List Char) : Kept s (createParent s path) := by
  unfold Vfs.createParent
  split
  · exact Kept.ok hs.root.1
  · split
    · exact Kept.error .refl _
    · exact hs.kernPath _ _

theorem Wf.openCreate_edits (hs : Wf s) (path : List Char) (flags mode : Nat)
    (hf : P → ∀ p, (Vfs.createParent s path).1 = .ok p → Free s p (baseName path)) :
    Edits P s (openCreate s path flags mode).2 := by
  unfold Vfs.openCreate
  have hkept := hs.createParent path
  cases h : Vfs.createParent s path with
  | mk r t =>
    rw [h] at hf hkept
    have hst : Grows s t := hkept.grows
    have hwf := hst.wf hs
    cases r with
    | error err => exact hst.edits
    | ok parent =>
      have hlt : parent < t.nrDentry := hkept.lt _ rfl
      dsimp only
      split
      · exact hst.edits
      · rename_i hpos
        split
        · exact hst.edits
        · split
          · rename_i ha
            exact hst.edits.trans (hwf.dAlloc_then hlt ha).2.1
          · rename_i d u ha
            obtain ⟨hwf', htu, hd⟩ := hwf.dAlloc_then (P := P) hlt ha
            obtain ⟨-, hneg, hpar, hino, -⟩ := hd d rfl
            have hc := hwf'.ramfsCreate_edits (P := P) hneg (by rw [hpar, hino]; exact hpos)
              (fun hP => alone_dAlloc hlt ha (hst.free (hf hP parent rfl))) (mode ||| 0x1A4)
            have hsu := hst.edits.trans htu
            split
            · rename_i hr
              rw [hr] at hc
              have hwfc := Edits.wf hc hwf'
              split
              · rename_i h'
                exact (hsu.trans hc).trans (hwfc.kernPath_then h').2.1
              · rename_i h'
                exact ((hsu.trans hc).trans (hwfc.kernPath_then h').2.1).trans (openDentry_edits _ _ _)
            · rename_i hr
              rw [hr] at hc
              exact hsu.trans hc

/-- The directory `filp_open` makes a file in, if it makes one. -/
def openParent (s : Fs) (path : List Char) (flags : Nat) : Option Nat :=
  match kernPath s path lookupFollow with
  | (.error e, s) => if e = -enoent ∧ flags &&& oCreat ≠ 0 then (createParent s path).1.toOption else none
  | (.ok _, _) => none

theorem Wf.filpOpen_edits (hs : Wf s) (path : List Char) (flags mode : Nat)
    (hf : P → ∀ p, openParent s path flags = some p → Free s p (baseName path)) :
    Edits P s (filpOpen s path flags mode).2 := by
  unfold Vfs.filpOpen
  unfold openParent at hf
  have hkept := hs.kernPath path lookupFollow
  cases h : Vfs.kernPath s path lookupFollow with
  | mk r t =>
    rw [h] at hf hkept
    have hst : Grows s t := hkept.grows
    cases r with
    | error err =>
      dsimp only at hf ⊢
      split
      · rename_i hcreat
        rw [if_pos hcreat] at hf
        refine hst.edits.trans (Wf.openCreate_edits (hst.wf hs) path flags mode fun hP p hp => hst.free (hf hP p ?_))
        rw [hp]
        rfl
      · exact hst.edits
    | ok d => exact hst.edits.trans (openDentry_edits _ _ _)

theorem Wf.sysStat_edits (hs : Wf s) (path : List Char) : Edits P s (sysStat s path).2 := by
  unfold Vfs.sysStat
  split
  · rename_i h
    exact (hs.kernPath_then h).2.1
  · rename_i h
    split <;> exact (hs.kernPath_then h).2.1

theorem Wf.sysAccess_edits (hs : Wf s) (root : Bool) (path : List Char) (mode : Nat) : Edits P s (sysAccess s root path mode).2 := by
  unfold Vfs.sysAccess
  split
  · rename_i h
    exact (hs.kernPath_then h).2.1
  · rename_i h
    split
    · exact (hs.kernPath_then h).2.1
    · split <;> exact (hs.kernPath_then h).2.1

/-- `ramfs_mount` makes a root with a directory's inode; the number is not in use before. -/
theorem Wf.ramfsMount_edits (hs : Wf s) : Edits P s (ramfsMount s).2 ∧ ∀ d, (ramfsMount s).1 = some d → d = s.nrDentry ∧
    d < (ramfsMount s).2.nrDentry ∧ (ramfsMount s).2.parent d = d ∧
      ∃ i, (ramfsMount s).2.inode d = some i ∧ sIsdir ((ramfsMount s).2.inodes i).iMode = true := by
  unfold Vfs.ramfsMount
  rw [kmallocOk_eq]
  cases answer s.kmalloc with
  | false => exact ⟨.single (.mem s _), nofun⟩
  | true =>
    have hmem : Edits P s (withMem s s.kmalloc.tail) := .single (.mem s _)
    simp only [newInode_eq]
    generalize answer _ = room
    cases room with
    | false => exact ⟨hmem.tail (.mem _ _), nofun⟩
    | true =>
      have hset := hs.edits_setInode ((hmem.tail (.mem _ _)).tail (.newInode _)) rfl rfl
        ⟨sIfdir ||| 0x1ED, 1, 2, 0, 0, .ramfsDir, .ramfsDir, .null⟩ nofun
      have hdir : ∀ f : Nat → Inode, sIsdir (Function.update f s.nrInode
          ⟨sIfdir ||| 0x1ED, 1, 2, 0, 0, .ramfsDir, .ramfsDir, .null⟩ s.nrInode).iMode = true := by
        intro f
        rw [Function.update_self]
        rfl
      simp only [if_true, kmallocOk_eq]
      generalize answer _ = room
      cases room with
      | false => exact ⟨hset.tail (.mem _ _), nofun⟩
      | true =>
        refine ⟨(hset.tail (.mem _ _)).tail (.addRoot _ _ _ (Nat.lt_succ_self _) ?_), fun d hd => ?_⟩
        · exact hdir _
        · cases hd
          refine ⟨rfl, Nat.lt_succ_self _, ?_, s.nrInode, ?_, hdir _⟩
          · show (Function.update s.dentries s.nrDentry _ s.nrDentry).dParent = s.nrDentry
            rw [Function.update_self]
            rfl
          · show (Function.update s.dentries s.nrDentry _ s.nrDentry).dInode = some s.nrInode
            rw [Function.update_self]
            rfl

theorem Wf.doMount_edits (hs : Wf s) (path : List Char) : Edits P s (doMount s path).2 := by
  unfold Vfs.doMount
  split
  · rename_i h
    exact (hs.kernPath_then h).2.1
  · rename_i mountpoint t h
    obtain ⟨hwf, hst, -, hlt⟩ := hs.kernPath_then h
    obtain ⟨htu, hroot⟩ := hwf.ramfsMount_edits
    split
    · rename_i hr
      rw [hr] at htu
      exact hst.trans htu
    · rename_i root u hr
      rw [hr] at htu hroot
      obtain ⟨hnew, hlt', hpar, i, hi, hdir⟩ := hroot root rfl
      have hsu := hst.trans htu
      rw [kmallocOk_eq]
      cases answer u.kmalloc with
      | false => exact hsu.tail (.mem _ _)
      | true =>
        simp only
        split
        · exact (hsu.tail (.mem u u.kmalloc.tail)).tail (.mount _ mountpoint root i (hnew ▸ hlt _ rfl) hlt' hpar hi hdir)
        · exact hsu.tail (.mem _ _)

/-! ## Runs -/

/-- The calls on the file system. -/
inductive Call where
  | mkdir (path : List Char) (mode : Nat)
  | rmdir (path : List Char)
  | mknod (path : List Char) (mode dev : Nat)
  | symlink (target path : List Char)
  | link (oldpath newpath : List Char)
  | rename (oldpath newpath : List Char)
  | unlink (path : List Char)
  | stat (path : List Char)
  | access (root : Bool) (path : List Char) (mode : Nat)
  | openAt (path : List Char) (flags mode : Nat)
  | mount (path : List Char)

def Call.run (s : Fs) : Call → Fs
  | .mkdir path mode => (sysMkdir s path mode).2
  | .rmdir path => (sysRmdir s path).2
  | .mknod path mode dev => (sysMknod s path mode dev).2
  | .symlink target path => (sysSymlink s target path).2
  | .link oldpath newpath => (sysLink s oldpath newpath).2
  | .rename oldpath newpath => (sysRename s oldpath newpath).2
  | .unlink path => (sysUnlink s path).2
  | .stat path => (sysStat s path).2
  | .access root path mode => (sysAccess s root path mode).2
  | .openAt path flags mode => (filpOpen s path flags mode).2
  | .mount path => (doMount s path).2

/-- The calls, after `init_rootfs`, under any answers of the allocator. -/
def machine : Machine Fs Call where
  init s := ∃ as, s = rootfs as
  step s a := some (a.run s)

/-- **A call is a sequence of changes.** -/
theorem Wf.call_edits (hs : Wf s) (a : Call) : Edits False s (a.run s) := by
  cases a with
  | mkdir path mode => exact hs.sysMkdir_edits path mode
  | rmdir path => exact hs.sysRmdir_edits path
  | mknod path mode dev => exact hs.withNewDentry_edits path fun t d ht hneg ha => ht.vfsMknod_edits hneg (fun _ => ha) mode dev
  | symlink target path => exact hs.withNewDentry_edits path fun t d ht hneg ha => ht.vfsSymlink_edits hneg (fun _ => ha) target
  | link oldpath newpath => exact hs.sysLink_edits oldpath newpath nofun
  | rename oldpath newpath => exact hs.sysRename_edits oldpath newpath
  | unlink path => exact hs.sysUnlink_edits path
  | stat path => exact hs.sysStat_edits path
  | access root path mode => exact hs.sysAccess_edits root path mode
  | openAt path flags mode => exact hs.filpOpen_edits path flags mode nofun
  | mount path => exact hs.doMount_edits path

theorem Wf.call (hs : Wf s) (a : Call) : Wf (a.run s) := Edits.wf (hs.call_edits a) hs

theorem wf_rootfs (as : List Bool) : Wf (rootfs as) where
  child := fun _ _ hc => nomatch hc
  nodup := fun _ => List.nodup_nil
  parent_lt := fun _ _ => Nat.zero_lt_one
  root := ⟨Nat.zero_lt_one, rfl⟩
  mount := fun _ hm => nomatch hm
  positive := fun _ _ _ h => nomatch h
  inode_lt := fun _ _ _ h => by
    cases h
    exact Nat.zero_lt_one

/-- **Every state the calls reach is a tree.** -/
theorem wf_of_run (l : List Call) (hs : machine.init s) (h : machine.run s l = some t) : Wf t := by
  obtain ⟨as, rfl⟩ := hs
  refine machine.run_invariant (fun u a v hu hstep => ?_) l _ t (wf_rootfs as) h
  cases hstep
  exact hu.call a

/-- A directory is made, looked into, mounted on and renamed. -/
theorem wf_of_run_mount : ∃ t, machine.run (rootfs []) [.mkdir "/a".toList 0o755, .stat "/a/b".toList, .mount "/a".toList,
    .rename "/a".toList "/c".toList] = some t ∧ Wf t :=
  ⟨_, rfl, wf_of_run [_, _, _, _] ⟨[], rfl⟩ rfl⟩

end Vfs
end Pico
