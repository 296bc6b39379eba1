import Picomimi.VfsLookup
/-!
# VfsResolve — the dentry a path leads to

`kern_path` that succeeds with a dentry that has an inode changes nothing: its answer is a walk over the tree, and then over
the targets of the links it follows (`resolves_iff`).  `Tree` adds to the shape of the tree the order the dentries are made in.
The answer is the dentry alone: `path->mnt` is `root_mnt` for every path.
-/
namespace Pico
namespace Vfs

open Lib

variable {s t : Fs} {a b c d e i k p r v : Nat} {m n : Name} {cs : List Name} {f : Bool} {path : List Char} {P : Prop}

/-! ## The order of the dentries -/

def IsDir (s : Fs) (d : Nat) : Prop := ∃ i, s.inode d = some i ∧ sIsdir (s.inodes i).iMode = true

/-- **The tree as it grows**: a dentry is younger than its parent, a root younger than what it is mounted on. -/
structure Tree (s : Fs) : Prop extends Wf s where
  first : s.rootDentry = 0
  rootDir : IsDir s s.rootDentry
  parent_le : ∀ d, d < s.nrDentry → s.parent d ≤ d
  mounted : ∀ m ∈ s.mountTable, m.1 < m.2 ∧ IsDir s m.2

theorem IsDir.congr (h : IsDir s d) (hd : t.inode d = s.inode d)
    (hi : ∀ i, s.inode d = some i → (t.inodes i).iMode = (s.inodes i).iMode) : IsDir t d := by
  obtain ⟨i, h1, h2⟩ := h
  exact ⟨i, hd.trans h1, (congrArg sIsdir (hi i h1)).trans h2⟩

/-- A directory stays one where its dentry keeps its inode and its inode its mode. -/
theorem Tree.of_same (hs : Tree s) (ht : Wf t) (hroot : t.rootDentry = s.rootDentry) (hnr : t.nrDentry = s.nrDentry)
    (hm : t.mountTable = s.mountTable) (hpar : ∀ d, d < s.nrDentry → t.parent d = s.parent d)
    (hdir : ∀ d, d < s.nrDentry → IsDir s d → IsDir t d) : Tree t := by
  refine ⟨ht, hroot.trans hs.first, ?_, fun d hd => ?_, fun m hmem => ?_⟩
  · rw [hroot]
    exact hdir _ hs.root.1 hs.rootDir
  · rw [hnr] at hd
    rw [hpar d hd]
    exact hs.parent_le d hd
  · rw [hm] at hmem
    exact ⟨(hs.mounted m hmem).1, hdir _ (hs.mount m hmem).2.1 (hs.mounted m hmem).2⟩

theorem Grow.tree (h : Grow s t) (hs : Tree s) : Tree t := by
  have ht := h.wf hs.toWf
  cases h with
  | mem as => exact hs.of_same ht rfl rfl rfl (fun _ _ => rfl) fun _ _ h => h
  | add p n hp =>
    have hdir : ∀ d, d < s.nrDentry → IsDir s d → IsDir (addDentry s p n) d := fun d hd h =>
      h.congr ((inode_addDentry hp d).trans (if_neg (Nat.ne_of_lt hd))) fun _ _ => rfl
    refine ⟨ht, hs.first, hdir _ hs.root.1 hs.rootDir, fun d hd => ?_, fun m hm =>
      ⟨(hs.mounted m hm).1, hdir _ (hs.mount m hm).2.1 (hs.mounted m hm).2⟩⟩
    rw [parent_addDentry hp]
    split
    · rename_i heq
      rw [heq]
      exact Nat.le_of_lt hp
    · rename_i hne
      exact hs.parent_le d (Nat.lt_of_le_of_ne (Nat.lt_succ_iff.1 hd) hne)

theorem Edit.tree (h : Edit P s t) (hs : Tree s) : Tree t := by
  have ht := h.wf hs.toWf
  cases h with
  | grow _ h => exact h.tree hs
  | newInode =>
    refine hs.of_same ht rfl rfl rfl (fun _ _ => rfl) fun d hd h => h.congr rfl fun i hi => ?_
    exact congrArg Inode.iMode (Function.update_of_ne (Nat.ne_of_lt (hs.inode_lt d i hd hi)) _ _)
  | setInode i v hfree _ =>
    refine hs.of_same ht rfl rfl rfl (fun _ _ => rfl) fun d hd h => h.congr rfl fun j hj => ?_
    refine congrArg Inode.iMode (Function.update_of_ne ?_ _ _)
    rintro rfl
    exact hfree d hd hj
  | nlink i k =>
    refine hs.of_same ht rfl rfl rfl (fun _ _ => rfl) fun d hd h => h.congr rfl fun j _ => ?_
    by_cases hj : j = i
    · subst hj
      show (Function.update s.inodes j { s.inodes j with iNlink := k } j).iMode = _
      rw [Function.update_self]
    · exact congrArg Inode.iMode (Function.update_of_ne hj _ _)
  | counters a b c d e f => exact hs.of_same ht rfl rfl rfl (fun _ _ => rfl) fun _ _ h => h
  | fill v i hv _ _ _ =>
    have hpar : ∀ d, (dInstantiate s v (some i)).parent d = s.parent d := by
      intro d
      rw [Fs.parent, dentries_dInstantiate]
      rfl
    refine hs.of_same ht rfl rfl rfl (fun d _ => hpar d) fun d _ h => h.congr ?_ fun _ _ => rfl
    rw [inode_dInstantiate, if_neg]
    rintro rfl
    obtain ⟨j, hj, -⟩ := h
    rw [hv] at hj
    cases hj
  | unlist v =>
    exact hs.of_same ht rfl rfl rfl (fun d _ => parent_listDelInit s v d) fun d _ h =>
      h.congr (inode_listDelInit s v d) fun _ _ => rfl
  | setName v n _ =>
    have hsame : ∀ d, (s.setDentry v { s.dentries v with dName := n }).parent d = s.parent d ∧
        (s.setDentry v { s.dentries v with dName := n }).inode d = s.inode d := by
      intro d
      by_cases hd : d = v
      · simp [Fs.parent, Fs.inode, Fs.setDentry, hd]
      · simp [Fs.parent, Fs.inode, Fs.setDentry, Function.update_of_ne hd]
    exact hs.of_same ht rfl rfl rfl (fun d _ => (hsame d).1) fun d _ h => h.congr (hsame d).2 fun _ _ => rfl
  | addRoot n i hi hdir =>
    have hde : ∀ d, d ≠ s.nrDentry → Function.update s.dentries s.nrDentry ⟨n, s.nrDentry, some i, []⟩ d = s.dentries d :=
      fun d hd => Function.update_of_ne hd _ _
    have hkeep : ∀ d, d < s.nrDentry → IsDir s d →
        IsDir { s.setDentry s.nrDentry ⟨n, s.nrDentry, some i, []⟩ with nrDentry := s.nrDentry + 1 } d := fun d hd h =>
      h.congr (congrArg Dentry.dInode (hde d (Nat.ne_of_lt hd))) fun _ _ => rfl
    refine ⟨ht, hs.first, hkeep _ hs.root.1 hs.rootDir, fun d hd => ?_, fun m hm =>
      ⟨(hs.mounted m hm).1, hkeep _ (hs.mount m hm).2.1 (hs.mounted m hm).2⟩⟩
    by_cases heq : d = s.nrDentry
    · subst heq
      show (Function.update s.dentries s.nrDentry ⟨n, s.nrDentry, some i, []⟩ s.nrDentry).dParent ≤ s.nrDentry
      rw [Function.update_self]
    · have hlt : d < s.nrDentry := Nat.lt_of_le_of_ne (Nat.lt_succ_iff.1 hd) heq
      exact Nat.le_trans (Nat.le_of_eq (congrArg Dentry.dParent (hde d heq))) (hs.parent_le d hlt)
  | mount x r i hx hr hpar hi hdir =>
    refine ⟨ht, hs.first, hs.rootDir, hs.parent_le, fun m hm => ?_⟩
    rcases List.mem_append.1 hm with hm | hm
    · exact hs.mounted m hm
    · rw [List.mem_singleton.1 hm]
      exact ⟨hx, i, hi, hdir⟩

theorem Edits.tree (h : Edits P s t) (hs : Tree s) : Tree t := by
  induction h with
  | refl => exact hs
  | tail _ h ih => exact h.tree ih

theorem tree_rootfs (as : List Bool) : Tree (rootfs as) :=
  ⟨wf_rootfs as, rfl, ⟨0, rfl, (by decide : sIsdir (sIfdir ||| 0x1ED) = true)⟩, fun _ _ => Nat.zero_le _, nofun⟩

/-- **Every state the calls reach is such a tree.** -/
theorem tree_of_run (l : List Call) (hs : machine.init s) (h : machine.run s l = some t) : Tree t := by
  obtain ⟨as, rfl⟩ := hs
  refine machine.run_invariant (fun u a v hu hstep => ?_) l _ t (tree_rootfs as) h
  cases hstep
  exact Edits.tree (hu.call_edits a) hu

/-! ## Resolution -/

/-- **`kern_path` resolves the path to `d`**, a dentry with an inode. -/
def Resolves (s : Fs) (follow : Bool) (path : List Char) (d : Nat) : Prop :=
  (kernPath s path ⟨false, follow⟩).1 = .ok d ∧ (kernPath s path ⟨false, follow⟩).2.inode d ≠ none

/-- Where the links from `d` on lead, at most so many of them. -/
def linkEnd (s : Fs) : Nat → Nat → Option Nat
  | fuel, d =>
    if isSymlink s d then
      match fuel with
      | 0 => none
      | fuel + 1 =>
        match linkTarget s d with
        | none => none
        | some target =>
          match walk (dLookup s) s.rootDentry (targetComponents target) with
          | .ok e => linkEnd s fuel e
          | .error _ => none
    else some d

/-- What `kern_path` makes of the dentry its walk ends at. -/
def reach (s : Fs) (follow : Bool) (e : Nat) : Option Nat := if follow then linkEnd s 8 e else some e

theorem linkEnd_of_not (h : isSymlink s e = false) (fuel : Nat) : linkEnd s fuel e = some e := by
  unfold linkEnd
  rw [h]
  rfl

theorem linkEnd_succ (h : isSymlink s e = true) (fuel : Nat) : linkEnd s (fuel + 1) e =
    match linkTarget s e with
    | none => none
    | some target =>
      match walk (dLookup s) s.rootDentry (targetComponents target) with
      | .ok e => linkEnd s fuel e
      | .error _ => none := by
  rw [linkEnd, if_pos h]

theorem reach_of_not (h : isSymlink s e = false) (f : Bool) : reach s f e = some e := by
  unfold reach
  split
  · exact linkEnd_of_not h 8
  · rfl

/-- **Links are followed as `linkEnd` says**, to a dentry with an inode. -/
theorem followLinks_iff (hs : Wf s) : ∀ (fuel e : Nat),
    ((followLinks fuel s e).1 = .ok d ∧ (followLinks fuel s e).2.inode d ≠ none ↔
      linkEnd s fuel e = some d ∧ s.inode d ≠ none) := by
  have hnot : ∀ fuel e, isSymlink s e = false →
      ((followLinks fuel s e).1 = .ok d ∧ (followLinks fuel s e).2.inode d ≠ none ↔
        linkEnd s fuel e = some d ∧ s.inode d ≠ none) := by
    intro fuel e h
    rw [followLinks_of_not h, linkEnd_of_not h, Except.ok.injEq, Option.some.injEq]
  intro fuel
  induction fuel with
  | zero =>
    intro e
    by_cases h : isSymlink s e = true
    · unfold followLinks linkEnd
      rw [if_pos h, if_pos h]
      exact iff_of_false (fun hc => by cases hc.1) (fun hc => by cases hc.1)
    · exact hnot 0 e (Bool.eq_false_iff.2 h)
  | succ fuel ih =>
    intro e
    by_cases h : isSymlink s e = true
    · rw [followLinks_succ h, linkEnd_succ h]
      cases linkTarget s e with
      | none => exact iff_of_false (fun hc => by cases hc.1) (fun hc => by cases hc.1)
      | some target =>
        dsimp only
        cases hw : walk (dLookup s) s.rootDentry (targetComponents target) with
        | ok e' =>
          rw [walkTarget_ok _ hw]
          exact ih e'
        | error q =>
          obtain ⟨-, hok⟩ := walkTarget_error _ (hs.target_lt hw) hw
          refine iff_of_false ?_ (fun hc => by cases hc.1)
          rcases hr : walkTarget s s.rootDentry (targetComponents target) with ⟨err | e', t⟩
          · exact fun hc => by cases hc.1
          · rw [hr] at hok
            have hneg := hok e' rfl
            dsimp only
            rw [followLinks_of_not (isSymlink_of_negative hneg)]
            rintro ⟨he, hpos⟩
            cases he
            exact hpos hneg
    · exact hnot _ e (Bool.eq_false_iff.2 h)

/-- **What a path resolves to** is read off the tree. -/
theorem resolves_iff (hs : Wf s) : Resolves s f path d ↔
    ∃ e, resolve s (components path) = .ok e ∧ reach s f e = some d ∧ s.inode d ≠ none := by
  have hwalk : walkPath false s s.rootDentry (components path) = match resolve s (components path) with
      | .ok e => (.ok e, s)
      | .error q => missed s q := walkPath_eq false s (components path) s.rootDentry
  unfold Resolves kernPath
  rw [hwalk]
  cases resolve s (components path) with
  | error q =>
    obtain ⟨err, t, hmissed⟩ := missed_error s q
    simp only [hmissed]
    exact iff_of_false (fun hc => nomatch hc.1) fun ⟨_, hc, _⟩ => nomatch hc
  | ok e =>
    have hex : (∃ e', (Except.ok e : Except (Nat × Name) Nat) = .ok e' ∧ reach s f e' = some d ∧ s.inode d ≠ none) ↔
        reach s f e = some d ∧ s.inode d ≠ none := by
      constructor
      · rintro ⟨e', he, h⟩
        cases he
        exact h
      · exact fun h => ⟨e, rfl, h⟩
    rw [hex]
    dsimp only
    cases f with
    | true => exact followLinks_iff hs 8 e
    | false =>
      show Except.ok e = Except.ok d ∧ _ ↔ some e = some d ∧ _
      rw [Except.ok.injEq, Option.some.injEq]
      exact and_congr_right fun h => by subst h; exact Iff.rfl

/-- Followed to an end, the links leave the tree as it is. -/
theorem followLinks_of_linkEnd : ∀ {fuel e : Nat}, linkEnd s fuel e = some d → followLinks fuel s e = (.ok d, s)
  | 0, e, h => by
    unfold linkEnd at h
    split at h
    · cases h
    · rename_i hl
      cases h
      exact followLinks_of_not (Bool.eq_false_iff.2 hl) 0
  | fuel + 1, e, h => by
    by_cases hl : isSymlink s e = true
    · rw [linkEnd_succ hl] at h
      rw [followLinks_succ hl]
      cases ht : linkTarget s e with
      | none =>
        rw [ht] at h
        cases h
      | some target =>
        rw [ht] at h
        dsimp only at h ⊢
        cases hw : walk (dLookup s) s.rootDentry (targetComponents target) with
        | error q =>
          rw [hw] at h
          cases h
        | ok e' =>
          rw [hw] at h
          rw [walkTarget_ok _ hw]
          exact followLinks_of_linkEnd h
    · have hl' := Bool.eq_false_iff.2 hl
      rw [linkEnd_of_not hl'] at h
      cases h
      exact followLinks_of_not hl' (fuel + 1)

/-- **A path that resolves does so without a change.** -/
theorem kernPath_of_resolves (hs : Wf s) (h : Resolves s f path d) : kernPath s path ⟨false, f⟩ = (.ok d, s) := by
  obtain ⟨e, he, hr, -⟩ := (resolves_iff hs).1 h
  have hwalk : walkPath false s s.rootDentry (components path) = (.ok e, s) := by
    have hw := walkPath_eq false s (components path) s.rootDentry
    rw [show walk (edge s) s.rootDentry (walked false (components path)) = .ok e from he] at hw
    exact hw
  unfold kernPath
  simp only [hwalk]
  unfold reach at hr
  split
  · rename_i hf
    rw [if_pos hf] at hr
    exact followLinks_of_linkEnd hr
  · rename_i hf
    rw [if_neg hf] at hr
    cases hr
    rfl

theorem Resolves.lt (hs : Wf s) (h : Resolves s f path d) : d < s.nrDentry := by
  have hlt := (hs.kernPath path ⟨false, f⟩).lt d h.1
  rwa [kernPath_of_resolves hs h] at hlt

/-! ## Text -/

/-- A slash ends what is before it. -/
theorem components_append (p q : List Char) : components (p ++ '/' :: q) = components p ++ components q := by
  rw [components, List.splitOn_append_cons_self, List.filter_append]
  rfl

theorem components_slash (p : List Char) : components ('/' :: p) = components p := components_append [] p

/-- **Repeated slashes change nothing.** -/
theorem components_slashes (p q : List Char) : components (p ++ '/' :: '/' :: q) = components (p ++ '/' :: q) := by
  rw [components_append, components_append, components_slash]

theorem components_name (h : '/' ∉ n) (h0 : n ≠ []) : components n = [n] := by
  rw [components_of_not_mem h, if_neg h0]

/-- The answer of `kern_path` depends on the components. -/
theorem kernPath_congr {p q : List Char} (h : components p = components q) (s : Fs) (flags : LookupFlags) :
    kernPath s p flags = kernPath s q flags := by
  unfold kernPath
  rw [h]

/-! ## Roots -/

theorem isSymlink_of_isDir (h : IsDir s d) : isSymlink s d = false := by
  obtain ⟨i, hi, hdir⟩ := h
  rw [isSymlink, hi, Option.any_some]
  simp only [sIsdir, sIslnk, beq_iff_eq] at hdir ⊢
  rw [hdir]
  decide

theorem Tree.root_lt (hs : Tree s) {x : Nat × Nat} (hx : x ∈ s.mountTable) : s.rootDentry < x.2 := by
  rw [hs.first]
  exact Nat.lt_of_le_of_lt (Nat.zero_le _) (hs.mounted x hx).1

/-- The root of a mount is no entry of a directory. -/
theorem Tree.not_child (hs : Tree s) {x : Nat × Nat} (hx : x ∈ s.mountTable) (v : Nat) : x.2 ∉ s.subdirs v := by
  intro hc
  obtain ⟨hpar, hne, -⟩ := hs.child v x.2 hc
  exact hne ((hs.mount x hx).2.2.symm.trans hpar)

/-- A link leads to the root or to an entry of a directory: never into a mount. -/
theorem linkEnd_cases : ∀ {fuel e : Nat}, linkEnd s fuel e = some d → d = e ∨ d = s.rootDentry ∨ ∃ v, d ∈ s.subdirs v
  | 0, e, h => by
    unfold linkEnd at h
    split at h
    · cases h
    · cases h
      exact .inl rfl
  | fuel + 1, e, h => by
    by_cases hl : isSymlink s e = true
    · rw [linkEnd_succ hl] at h
      cases ht : linkTarget s e with
      | none =>
        rw [ht] at h
        cases h
      | some target =>
        rw [ht] at h
        dsimp only at h
        cases hw : walk (dLookup s) s.rootDentry (targetComponents target) with
        | error q =>
          rw [hw] at h
          cases h
        | ok e' =>
          rw [hw] at h
          have he' : e' = s.rootDentry ∨ ∃ v, e' ∈ s.subdirs v :=
            walk_invariant (P := fun v => v = s.rootDentry ∨ ∃ w, v ∈ s.subdirs w)
              (fun v _ _ _ hc => .inr ⟨v, (dLookup_mem hc).1⟩) _ (.inl rfl) hw
          rcases linkEnd_cases h with rfl | h'
          · exact .inr he'
          · exact .inr h'
    · rw [linkEnd_of_not (Bool.eq_false_iff.2 hl)] at h
      cases h
      exact .inl rfl

/-- A path that leads to the root of a mount does so without a link. -/
theorem Tree.reach_root (hs : Tree s) {x : Nat × Nat} (hx : x ∈ s.mountTable) (h : reach s f e = some x.2) : e = x.2 := by
  unfold reach at h
  split at h
  · rcases linkEnd_cases h with heq | heq | ⟨v, hv⟩
    · exact heq.symm
    · exact absurd heq (Nat.ne_of_gt (hs.root_lt hx))
    · exact absurd hv (hs.not_child hx v)
  · cases h
    rfl

end Vfs
end Pico
