import Picomimi.VfsPath
/-!
# VfsLookup — what a failed lookup leaves behind

A lookup of a path that does not exist leaves a negative dentry for the first entry it misses.  The makers of files ask
`d_lookup`, which finds that dentry too, and say that the path exists.  `invisible_iff` compares the two runs, with the
lookup and without.
-/
namespace Pico
namespace Vfs

open Lib

/-! ## The two runs -/

/-- The calls that look a path up. -/
inductive Look where
  | stat
  | access (root : Bool) (mode : Nat)
  | openAt (flags mode : Nat) (noCreat : flags &&& oCreat = 0)

def Look.run (s : Fs) (path : List Char) : Look → Fs
  | .stat => (sysStat s path).2
  | .access root mode => (sysAccess s root path mode).2
  | .openAt flags mode _ => (filpOpen s path flags mode).2

/-- The calls that create what a path names. -/
inductive Make where
  | mkdir (mode : Nat)
  | mknod (mode dev : Nat)
  | symlink (target : List Char)
  | openCreat (flags mode : Nat) (creat : flags &&& oCreat ≠ 0)

/-- What a call returns: a number, or `filp_open`'s file. -/
inductive Ret where
  | code (r : Int)
  | file (f : Except Int File)

def Make.run (s : Fs) (path : List Char) : Make → Ret × Fs
  | .mkdir mode => ((.code (sysMkdir s path mode).1), (sysMkdir s path mode).2)
  | .mknod mode dev => ((.code (sysMknod s path mode dev).1), (sysMknod s path mode dev).2)
  | .symlink target => ((.code (sysSymlink s target path).1), (sysSymlink s target path).2)
  | .openCreat flags mode _ => ((.file (filpOpen s path flags mode).1), (filpOpen s path flags mode).2)

/-- **The lookup makes no difference** to the maker: same return value, same tree.  Each of the two calls has its own answers
of the allocator. -/
def Invisible (s : Fs) (path : List Char) (look : Look) (as : List Bool) (make : Make) (as' : List Bool) : Prop :=
  let after := make.run (withMem (look.run (withMem s as) path) as') path
  let direct := make.run (withMem s as') path
  after.1 = direct.1 ∧ SameTree after.2 direct.2

/-! ## The entry a lookup misses -/

/-- The absolute target of a link. -/
def linkTarget (s : Fs) (d : Nat) : Option Name :=
  match (s.inode d).map fun i => (s.inodes i).iPrivate with
  | some (.link target) => if target.head? = some '/' then some target else none
  | _ => none

/-- The entry missing on the way along links, if the directory it is missed in makes a dentry for it. -/
def missingTarget (s : Fs) : Nat → Nat → Option (Nat × Name)
  | 0, _ => none
  | fuel + 1, d =>
    if isSymlink s d then
      match linkTarget s d with
      | none => none
      | some target =>
        match walk (dLookup s) s.rootDentry (targetComponents target) with
        | .ok e => missingTarget s fuel e
        | .error q => if isRamfsDir s (s.inode q.1) then some q else none
    else none

/-- The entry that a lookup of the path asks for and that has no dentry yet. -/
def missing (s : Fs) (path : List Char) : Option (Nat × Name) :=
  match resolve s (components path) with
  | .error q => some q
  | .ok d => missingTarget s 8 d

/-- **The lookup leaves no dentry**: the path misses no entry, or there is no memory for the dentry. -/
def NoTrace (s : Fs) (path : List Char) (as : List Bool) : Prop :=
  ∀ q, missing s path = some q → roomFor as q.2 = false

/-- **A path to a missing entry of an existing directory**: `dir` is a directory with an inode, not a link; the last component
is the name after the last slash; and nothing is there. -/
structure MissingEntry (s : Fs) (path : List Char) (dir : Nat) (n : Name) : Prop where
  base : baseName path = n
  proper : Proper n
  comps : components path = components (dirName path) ++ [n]
  parent : resolve s (components (dirName path)) = .ok dir
  positive : s.inode dir ≠ none
  nolink : isSymlink s dir = false
  absent : names s (components path) = none

variable {s t : Fs} {c d e i p v dir : Nat} {m n : Name} {q : Nat × Name} {path : List Char} {as as' : List Bool}

/-! ## The state a lookup leaves -/

/-- The state after a missed entry is asked for. -/
def leave (s : Fs) : Option (Nat × Name) → Fs
  | none => s
  | some q => (missed s q).2

theorem isSymlink_of_negative (h : s.inode d = none) : isSymlink s d = false := by
  rw [isSymlink, h]
  rfl

theorem followLinks_of_not (h : isSymlink s d = false) (fuel : Nat) : followLinks fuel s d = (.ok d, s) := by
  unfold followLinks
  rw [h]
  rfl

theorem walkTarget_ok : ∀ (cs : List Name) {d : Nat}, walk (dLookup s) d cs = .ok e → walkTarget s d cs = (.ok e, s)
  | [], d, h => by
    cases h
    rfl
  | n :: cs, d, h => by
    cases hc : dLookup s d n with
    | none =>
      rw [walk_cons_none hc] at h
      cases h
    | some c =>
      rw [walk_cons_some hc] at h
      simp only [walkTarget, hc]
      exact walkTarget_ok cs h

/-- Below a new dentry there is nothing, and no directory to ask. -/
theorem walkTarget_new (hd : dLookup s d = fun _ => none) (hn : s.inode d = none) (cs : List Name) :
    (walkTarget s d cs).2 = s ∧ ∀ e, (walkTarget s d cs).1 = .ok e → e = d := by
  cases cs with
  | nil => exact ⟨rfl, fun e h => by cases h; rfl⟩
  | cons n cs =>
    have hdir : isRamfsDir s (s.inode d) = false := by
      rw [hn]
      rfl
    simp only [walkTarget, hd, hdir]
    refine ⟨rfl, fun e h => ?_⟩
    cases h

theorem dLookup_addDentry_new (hp : p < s.nrDentry) : dLookup (addDentry s p n) s.nrDentry = fun _ => none := by
  funext m
  rw [dLookup, subdirs_addDentry hp, if_pos rfl]
  rfl

theorem Wf.dLookup_lt (hs : Wf s) (h : dLookup s d n = some c) : c < s.nrDentry := (hs.child d c (dLookup_mem h).1).2.2

theorem Wf.target_lt (hs : Wf s) {cs : List Name} (h : walk (dLookup s) s.rootDentry cs = .error q) :
    q.1 < s.nrDentry := by
  have hasked : ∀ q ∈ asked (dLookup s) s.rootDentry cs, q.1 < s.nrDentry :=
    asked_invariant (P := fun d => d < s.nrDentry) (fun _ _ _ _ h => hs.dLookup_lt h) cs hs.root.1
  exact hasked q (missed_of_error cs h).1

theorem walkTarget_error : ∀ (cs : List Name) {d : Nat}, q.1 < s.nrDentry → walk (dLookup s) d cs = .error q →
    (walkTarget s d cs).2 = leave s (if isRamfsDir s (s.inode q.1) then some q else none) ∧
      ∀ e, (walkTarget s d cs).1 = .ok e → (walkTarget s d cs).2.inode e = none
  | [], d, _, h => by cases h
  | n :: cs, d, hd, h => by
    cases hc : dLookup s d n with
    | some c =>
      rw [walk_cons_some hc] at h
      simp only [walkTarget, hc]
      exact walkTarget_error cs hd h
    | none =>
      rw [walk_cons_none hc] at h
      cases h
      simp only [walkTarget, hc, dAlloc_eq]
      by_cases hdir : isRamfsDir s (s.inode d) = true
      · rw [if_pos hdir, if_pos hdir, leave, missed]
        cases roomFor s.kmalloc n with
        | false => exact ⟨rfl, nofun⟩
        | true =>
          have hnew : (addDentry (withMem s (leftFor s.kmalloc n)) d n).inode s.nrDentry = none := inode_addDentry_new _ _ _
          have hnone : dLookup (addDentry (withMem s (leftFor s.kmalloc n)) d n) s.nrDentry = fun _ => none :=
            dLookup_addDentry_new (s := withMem s (leftFor s.kmalloc n)) hd
          obtain ⟨hst, hok⟩ := walkTarget_new hnone hnew cs
          simp only [if_true]
          rw [ramfsLookup_of_negative hnew, hst]
          refine ⟨rfl, fun e he => ?_⟩
          rw [hok e he]
          exact hnew
      · rw [if_neg hdir, if_neg hdir]
        exact ⟨rfl, nofun⟩

theorem followLinks_succ (h : isSymlink s d = true) (fuel : Nat) : followLinks (fuel + 1) s d =
    match linkTarget s d with
    | none => (.error (-enoent), s)
    | some target =>
      match walkTarget s s.rootDentry (targetComponents target) with
      | (.error e, s) => (.error e, s)
      | (.ok d, s) => followLinks fuel s d := by
  rw [followLinks, if_pos h]
  simp only [linkTarget]
  cases (s.inode d).map fun i => (s.inodes i).iPrivate with
  | none => rfl
  | some v =>
    cases v with
    | null => rfl
    | ramfs => rfl
    | link target =>
      dsimp only
      by_cases ht : target.head? = some '/'
      · rewrite [if_pos ht, if_pos ht]
        rfl
      · rewrite [if_neg ht, if_neg ht]
        rfl

theorem followLinks_snd (hs : Wf s) : ∀ (fuel d : Nat), (followLinks fuel s d).2 = leave s (missingTarget s fuel d)
  | 0, d => by
    unfold followLinks
    split <;> rfl
  | fuel + 1, d => by
    by_cases hlink : isSymlink s d = true
    · rw [followLinks_succ hlink, missingTarget, if_pos hlink]
      cases linkTarget s d with
      | none => rfl
      | some target =>
        simp only
        cases hw : walk (dLookup s) s.rootDentry (targetComponents target) with
        | ok e =>
          rw [walkTarget_ok _ hw]
          exact followLinks_snd hs fuel e
        | error q =>
          obtain ⟨hst, hok⟩ := walkTarget_error _ (hs.target_lt hw) hw
          simp only
          rw [← hst]
          rcases hr : walkTarget s s.rootDentry (targetComponents target) with ⟨err | e, t⟩
          · rfl
          · rw [hr] at hok
            simp only
            rw [followLinks_of_not (isSymlink_of_negative (hok e rfl))]
    · rw [followLinks_of_not (Bool.eq_false_iff.2 hlink), missingTarget, if_neg hlink]
      rfl

/-- **A lookup leaves the state as it was, or with one negative dentry more.** -/
theorem kernPath_follow_snd (hs : Wf s) (path : List Char) :
    (kernPath s path lookupFollow).2 = leave s (missing s path) := by
  have hwalk : walkPath lookupFollow.parent s s.rootDentry (components path) =
      match resolve s (components path) with
      | .ok e => (.ok e, s)
      | .error q => missed s q := walkPath_eq false s (components path) s.rootDentry
  rw [kernPath, hwalk, missing]
  cases resolve s (components path) with
  | ok d => exact followLinks_snd hs 8 d
  | error q =>
    obtain ⟨err, t, hmissed⟩ := missed_error s q
    simp only [hmissed, leave]

theorem missing_withMem (s : Fs) (as : List Bool) (path : List Char) : missing (withMem s as) path = missing s path := by
  have htarget : ∀ fuel d, missingTarget (withMem s as) fuel d = missingTarget s fuel d := by
    intro fuel
    induction fuel with
    | zero => exact fun _ => rfl
    | succ fuel ih =>
      intro d
      simp only [missingTarget, ih]
      rfl
  simp only [missing, htarget]
  rfl

theorem Look.run_eq (look : Look) (s : Fs) (path : List Char) :
    ∃ as, look.run s path = withMem (kernPath s path lookupFollow).2 as := by
  cases look with
  | stat =>
    refine ⟨(kernPath s path lookupFollow).2.kmalloc, ?_⟩
    simp only [Look.run, sysStat]
    rcases kernPath s path lookupFollow with ⟨err | d, t⟩
    · rfl
    · simp only
      split <;> rfl
  | access root mode =>
    refine ⟨(kernPath s path lookupFollow).2.kmalloc, ?_⟩
    simp only [Look.run, sysAccess]
    rcases kernPath s path lookupFollow with ⟨err | d, t⟩
    · rfl
    · simp only
      split
      · rfl
      · split <;> rfl
  | openAt flags mode hno =>
    simp only [Look.run, filpOpen]
    rcases kernPath s path lookupFollow with ⟨err | d, t⟩
    · refine ⟨t.kmalloc, ?_⟩
      simp only [hno, ne_eq, not_true, and_false, if_false]
      rfl
    · simp only [openDentry]
      split
      · exact ⟨t.kmalloc, rfl⟩
      · split
        · exact ⟨t.kmalloc, rfl⟩
        · rw [kmallocOk_eq]
          cases answer t.kmalloc with
          | false => exact ⟨_, rfl⟩
          | true => exact ⟨_, rfl⟩

/-- A lookup that leaves no dentry leaves the state. -/
theorem Look.run_of_noTrace (look : Look) (hs : Wf s) (h : NoTrace s path as) :
    ∃ as', look.run (withMem s as) path = withMem s as' := by
  obtain ⟨as', hrun⟩ := look.run_eq (withMem s as) path
  rw [kernPath_follow_snd (hs.mem as), missing_withMem] at hrun
  refine ⟨as', hrun.trans ?_⟩
  cases hm : missing s path with
  | none => rfl
  | some q =>
    have hroom : roomFor (withMem s as).kmalloc q.2 = false := h q hm
    simp only [leave, missed, hroom]
    rfl

/-! ## The dentry that is left -/

theorem Wf.resolve_addDentry (hs : Wf s) (hp : p < s.nrDentry) {cs : List Name}
    (h : (p, n) ∉ asked (edge s) s.rootDentry cs) : resolve (addDentry s p n) cs = resolve s cs := by
  refine walk_congr cs fun q hq => ?_
  exact hs.edge_addDentry_of_ne hp (hs.asked_lt cs q hq) fun hqe => h (hqe ▸ hq)

theorem Wf.asked_addDentry (hs : Wf s) (hp : p < s.nrDentry) {cs : List Name}
    (h : (p, n) ∉ asked (edge s) s.rootDentry cs) :
    asked (edge (addDentry s p n)) s.rootDentry cs = asked (edge s) s.rootDentry cs := by
  refine asked_congr cs fun q hq => ?_
  exact hs.edge_addDentry_of_ne hp (hs.asked_lt cs q hq) fun hqe => h (hqe ▸ hq)

theorem resolve_withMem (s : Fs) (as : List Bool) (cs : List Name) : resolve (withMem s as) cs = resolve s cs := rfl

section Missing

variable (hs : Wf s) (hm : MissingEntry s path dir n)
include hs hm

theorem MissingEntry.dir_lt : dir < s.nrDentry := hs.resolve_lt hm.parent

omit hs in
theorem MissingEntry.walked_eq : walked true (components path) = components (dirName path) := by
  rw [hm.comps]
  exact List.dropLast_concat

omit hs in
/-- A lookup leaves a dentry only where there was none. -/
theorem MissingEntry.missing_eq (h : missing s path = some q) : q = (dir, n) ∧ edge s dir n = none := by
  cases hedge : edge s dir n with
  | none =>
    have hres : resolve s (components path) = .error (dir, n) := by
      rw [hm.comps]
      exact walk_snoc_none hm.parent hedge
    simp only [missing, hres] at h
    exact ⟨(Option.some.inj h).symm, rfl⟩
  | some e =>
    have hres : resolve s (components path) = .ok e := by
      rw [hm.comps]
      exact walk_snoc_some hm.parent hedge
    have hneg : s.inode e = none := by
      rw [← names_of_ok hres]
      exact hm.absent
    simp only [missing, hres, missingTarget, isSymlink_of_negative hneg] at h
    cases h

theorem MissingEntry.run_look (look : Look) (h : ¬NoTrace s path as) :
    edge s dir n = none ∧ ∃ as', look.run (withMem s as) path = withMem (addDentry s dir n) as' := by
  unfold NoTrace at h
  push Not at h
  obtain ⟨q, hq, hroom⟩ := h
  obtain ⟨rfl, hedge⟩ := hm.missing_eq hq
  obtain ⟨as', hrun⟩ := look.run_eq (withMem s as) path
  rw [kernPath_follow_snd (hs.mem as), missing_withMem, hq] at hrun
  have hroom' : roomFor (withMem s as).kmalloc n = true := Bool.not_eq_false _ ▸ hroom
  simp only [leave, missed, hroom', if_true] at hrun
  exact ⟨hedge, as', hrun⟩

/-- With the dentry the path still has its parent, and an entry. -/
theorem MissingEntry.left (hedge : edge s dir n = none) :
    resolve (addDentry s dir n) (components (dirName path)) = .ok dir ∧
      resolve (addDentry s dir n) (components path) = .ok s.nrDentry ∧
      dLookup (addDentry s dir n) dir n = some s.nrDentry := by
  have hlt := hm.dir_lt hs
  have hpre : resolve (addDentry s dir n) (components (dirName path)) = .ok dir := by
    rw [hs.resolve_addDentry hlt fun h => edge_ne_none_of_ok _ hm.parent _ h hedge]
    exact hm.parent
  refine ⟨hpre, ?_, ?_⟩
  · rw [hm.comps]
    exact walk_snoc_some hpre (hs.edge_addDentry_new hlt hm.proper)
  · rw [dLookup, subdirs_addDentry hlt, if_neg (Nat.ne_of_lt hlt), if_pos rfl]
    exact List.find?_cons_of_pos (by simp [name_addDentry hlt])

end Missing

/-! ## The makers -/

theorem enomem_ne_eexist : -enomem ≠ -eexist := by decide

theorem zero_ne_eexist : 0 ≠ -eexist := by decide

theorem withNewDentry_exists {make : Fs → Option Nat → Nat → Int × Fs} (hk : kernPath s path lookupParent = (.ok p, s))
    (h : dLookup s p (baseName path) = some c) : withNewDentry s path make = (-eexist, s) := by
  simp only [withNewDentry, hk, h]

theorem withNewDentry_ne_eexist {make : Fs → Option Nat → Nat → Int × Fs}
    (hk : kernPath s path lookupParent = (.ok p, s)) (h : dLookup s p (baseName path) = none)
    (hmake : ∀ t dir d, (make t dir d).1 ≠ -eexist) : (withNewDentry s path make).1 ≠ -eexist := by
  simp only [withNewDentry, hk, h, dAlloc_eq]
  cases roomFor s.kmalloc (baseName path) with
  | false => exact enomem_ne_eexist
  | true => exact hmake _ _ _

theorem ramfsMkdir_fst (s : Fs) (dir d mode : Nat) :
    (ramfsMkdir s dir d mode).1 = 0 ∨ (ramfsMkdir s dir d mode).1 = -enomem := by
  simp only [ramfsMkdir, newInode_eq]
  cases answer s.kmalloc with
  | false => exact .inr rfl
  | true => exact .inl rfl

theorem vfsMkdir_ne_eexist (s : Fs) (dir : Option Nat) (d mode : Nat) : (vfsMkdir s dir d mode).1 ≠ -eexist := by
  cases dir with
  | none => simp only [vfsMkdir]; decide
  | some dir =>
    simp only [vfsMkdir]
    split
    · exact (by decide : -eperm ≠ -eexist)
    · have hfst := ramfsMkdir_fst s dir d (mode ||| sIfdir)
      split
      · exact zero_ne_eexist
      · rename_i err t _ h
        rw [h] at hfst
        rcases hfst with h0 | h0
        · exact h0.trans_ne (by decide)
        · exact h0.trans_ne enomem_ne_eexist

theorem vfsMknod_ne_eexist (s : Fs) (dir : Option Nat) (d mode dev : Nat) : (vfsMknod s dir d mode dev).1 ≠ -eexist := by
  cases dir with
  | none => simp only [vfsMknod]; decide
  | some dir =>
    simp only [vfsMknod, ramfsMknod, newInode_eq]
    split
    · cases answer s.kmalloc with
      | false => exact enomem_ne_eexist
      | true => exact zero_ne_eexist
    · cases answer s.kmalloc with
      | false => exact enomem_ne_eexist
      | true => exact zero_ne_eexist

theorem vfsSymlink_ne_eexist (s : Fs) (dir : Option Nat) (d : Nat) (oldname : Name) :
    (vfsSymlink s dir d oldname).1 ≠ -eexist := by
  cases dir with
  | none => simp only [vfsSymlink]; decide
  | some dir =>
    simp only [vfsSymlink, ramfsSymlink, newInode_eq]
    split
    · cases answer s.kmalloc with
      | false => exact enomem_ne_eexist
      | true =>
        simp only [if_true, kmallocOk_eq]
        generalize answer _ = room
        cases room with
        | false => exact enomem_ne_eexist
        | true => exact zero_ne_eexist
    · cases answer s.kmalloc with
      | false => exact enomem_ne_eexist
      | true =>
        simp only [if_true, kmallocOk_eq]
        generalize answer _ = room
        cases room with
        | false => exact enomem_ne_eexist
        | true => exact zero_ne_eexist

/-! ## `O_CREAT` -/

theorem kernPath_follow_ok {cs : List Name} (hc : components path = cs) (h : resolve s cs = .ok d) :
    kernPath s path lookupFollow = followLinks 8 s d := by
  have hwalk := walkPath_eq false s (components path) s.rootDentry
  rw [hc] at hwalk
  have h' : walk (edge s) s.rootDentry (walked false cs) = .ok d := h
  simp only [h'] at hwalk
  rw [kernPath, hc]
  simp only [lookupFollow, hwalk, if_true]

theorem kernPath_follow_error (h : resolve s (components path) = .error q) :
    kernPath s path lookupFollow = missed s q := by
  have hwalk := walkPath_eq false s (components path) s.rootDentry
  have h' : walk (edge s) s.rootDentry (walked false (components path)) = .error q := h
  obtain ⟨err, t, hmissed⟩ := missed_error s q
  simp only [h', hmissed] at hwalk
  rw [kernPath, hmissed]
  simp only [lookupFollow, hwalk]

/-- `ramfs_create` fails for want of memory, or gives the dentry a new inode. -/
theorem ramfsCreate_cases (s : Fs) (d mode : Nat) : (∃ t, ramfsCreate s d mode = (-enomem, t)) ∨
    ∃ t i, ramfsCreate s d mode = (0, t) ∧ edge t = edge s ∧ t.rootDentry = s.rootDentry ∧ t.inode d = some i ∧
      (t.inodes i).iPrivate = .ramfs := by
  simp only [ramfsCreate, newInode_eq]
  cases answer s.kmalloc with
  | false => exact .inl ⟨_, rfl⟩
  | true =>
    simp only [if_true, kmallocOk_eq]
    generalize answer _ = room
    cases room with
    | false => exact .inl ⟨_, rfl⟩
    | true =>
      refine .inr ⟨_, s.nrInode, rfl, ?_, rfl, ?_, ?_⟩
      · rw [edge_dInstantiate]
        rfl
      · rw [inode_dInstantiate, if_pos rfl]
      · simp [dInstantiate, Fs.setDentry, Fs.setInode]

/-- What `ramfs_create` makes is never followed. -/
theorem followLinks_ramfs (hi : s.inode d = some i) (h : (s.inodes i).iPrivate = .ramfs) (fuel : Nat) :
    followLinks (fuel + 1) s d = (.ok d, s) ∨ followLinks (fuel + 1) s d = (.error (-enoent), s) := by
  by_cases hlink : isSymlink s d = true
  · have hnone : linkTarget s d = none := by simp only [linkTarget, hi, Option.map_some, h]
    rw [followLinks_succ hlink, hnone]
    exact .inr rfl
  · rw [followLinks_of_not (Bool.eq_false_iff.2 hlink)]
    exact .inl rfl

theorem error_ne_enoent {α : Type} {err : Int} (h : err ≠ -enoent) : (.error err : Except Int α) ≠ .error (-enoent) :=
  fun he => h (Except.error.inj he)

theorem openDentry_names (s : Fs) (d flags : Nat) (cs : List Name) : names (openDentry s d flags).2 cs = names s cs := by
  unfold openDentry
  split
  · rfl
  · split
    · rfl
    · rw [kmallocOk_eq]
      cases answer s.kmalloc with
      | false => rfl
      | true => rfl

/-- The parent `O_CREAT` works out from the text is the parent on the walk. -/
theorem createParent_eq (hres : resolve s (components (dirName path)) = .ok dir) (hlink : isSymlink s dir = false) :
    createParent s path = (.ok dir, s) ∨ createParent s path = (.error (-enametoolong), s) := by
  unfold createParent
  by_cases hempty : dirName path = []
  · rw [if_pos hempty]
    rw [hempty] at hres
    have hroot : s.rootDentry = dir := by
      injection hres
    rw [hroot]
    exact .inl rfl
  · rw [if_neg hempty]
    by_cases hlong : 512 ≤ (dirName path).length
    · rw [if_pos hlong]
      exact .inr rfl
    · rw [if_neg hlong, kernPath_follow_ok rfl hres, followLinks_of_not hlink]
      exact .inl rfl

/-- **`O_CREAT` in a directory that exists** fails with something else than `ENOENT`, or makes the file. -/
theorem openCreate_spec (hs : Wf s) (hbase : baseName path = n) (hn : Proper n)
    (hcomps : components path = components (dirName path) ++ [n])
    (hres : resolve s (components (dirName path)) = .ok dir) (hask : (dir, n) ∉ asked (edge s) s.rootDentry
      (components (dirName path))) (hlink : isSymlink s dir = false) (hpos : s.inode dir ≠ none) (flags mode : Nat) :
    (openCreate s path flags mode).1 ≠ .error (-enoent) ∨ names (openCreate s path flags mode).2 (components path) ≠ none := by
  have hdir : dir < s.nrDentry := hs.resolve_lt hres
  unfold openCreate
  rcases createParent_eq hres hlink with hparent | hparent
  · simp only [hparent, if_neg hpos]
    split
    · exact .inl (error_ne_enoent (by decide))
    · simp only [hbase, dAlloc_eq]
      cases roomFor s.kmalloc n with
      | false => exact .inl (error_ne_enoent (by decide))
      | true =>
        simp only [if_true]
        have hmem := hs.mem (leftFor s.kmalloc n)
        rcases ramfsCreate_cases (addDentry (withMem s (leftFor s.kmalloc n)) dir n) s.nrDentry (mode ||| 0x1A4) with
          ⟨t, ht⟩ | ⟨t, i, ht, hedge, hroot, hi, hpriv⟩
        · rw [ht]
          exact .inl (error_ne_enoent (by decide))
        · have hpre : resolve (addDentry (withMem s (leftFor s.kmalloc n)) dir n) (components (dirName path)) = .ok dir :=
            (hmem.resolve_addDentry hdir hask).trans hres
          have htail : resolve t (components path) = .ok s.nrDentry := by
            rw [resolve, hedge, hroot, hcomps]
            exact walk_snoc_some hpre (hmem.edge_addDentry_new hdir hn)
          have hnames : names t (components path) ≠ none := by
            rw [names_of_ok htail, hi]
            exact Option.some_ne_none i
          rw [ht]
          simp only [kernPath_follow_ok rfl htail]
          rcases followLinks_ramfs hi hpriv 7 with hf | hf
          · rw [hf]
            simp only [openDentry_names]
            exact .inr hnames
          · rw [hf]
            exact .inr hnames
  · rw [hparent]
    exact .inl (error_ne_enoent (by decide))

/-! ## The comparison -/

/-- **A maker that finds the dentry a lookup left** says that the path exists, or (`O_CREAT`) that it does not; without the
lookup it makes the entry, or fails in another way. -/
theorem MissingEntry.visible (hs : Wf s) (hm : MissingEntry s path dir n) (hedge : edge s dir n = none) (make : Make)
    (as' : List Bool) : ¬((make.run (withMem (addDentry s dir n) as') path).1 = (make.run (withMem s as') path).1 ∧
      SameTree (make.run (withMem (addDentry s dir n) as') path).2 (make.run (withMem s as') path).2) := by
  obtain ⟨hpre, hnew, hfound⟩ := hm.left hs hedge
  have hn : baseName path ≠ [] := by
    rw [hm.base]
    exact ne_nil_of_mem_components (hm.comps ▸ List.mem_append_right _ (List.mem_singleton_self n))
  have hafter : kernPath (withMem (addDentry s dir n) as') path lookupParent = (.ok dir, withMem (addDentry s dir n) as') := by
    rw [lookupParent, kernPath_eq, hm.walked_eq, resolve_withMem, hpre]
  have hdirect : kernPath (withMem s as') path lookupParent = (.ok dir, withMem s as') := by
    rw [lookupParent, kernPath_eq, hm.walked_eq, resolve_withMem, hm.parent]
  have hfound' : dLookup (withMem (addDentry s dir n) as') dir (baseName path) = some s.nrDentry := by
    rw [hm.base]
    exact hfound
  have hnone : dLookup (withMem s as') dir (baseName path) = none := by
    rw [hm.base]
    exact (proper_of_edge_none hedge).2
  rintro ⟨hret, htree⟩
  cases make with
  | mkdir mode =>
    simp only [Make.run, sysMkdir_of_base hn, withNewDentry_exists hafter hfound', Ret.code.injEq] at hret
    exact withNewDentry_ne_eexist hdirect hnone (fun t dir d => vfsMkdir_ne_eexist t dir d mode) hret.symm
  | mknod mode dev =>
    simp only [Make.run, sysMknod, withNewDentry_exists hafter hfound', Ret.code.injEq] at hret
    exact withNewDentry_ne_eexist hdirect hnone (fun t dir d => vfsMknod_ne_eexist t dir d mode dev) hret.symm
  | symlink target =>
    simp only [Make.run, sysSymlink, withNewDentry_exists hafter hfound', Ret.code.injEq] at hret
    exact withNewDentry_ne_eexist hdirect hnone (fun t dir d => vfsSymlink_ne_eexist t dir d target) hret.symm
  | openCreat flags mode hcreat =>
    have hneg : (withMem (addDentry s dir n) as').inode s.nrDentry = none := inode_addDentry_new s dir n
    have hnew' : resolve (withMem (addDentry s dir n) as') (components path) = .ok s.nrDentry := hnew
    have hopen : filpOpen (withMem (addDentry s dir n) as') path flags mode =
        (.error (-enoent), withMem (addDentry s dir n) as') := by
      rw [filpOpen, kernPath_follow_ok rfl hnew', followLinks_of_not (isSymlink_of_negative hneg)]
      simp only [openDentry, hneg]
    have hmiss : resolve (withMem s as') (components path) = .error (dir, n) := by
      rw [hm.comps]
      exact walk_snoc_none hm.parent hedge
    simp only [Make.run, hopen, Ret.file.injEq] at hret htree
    have hnames := (htree (components path)).1
    rw [names_of_ok hnew', hneg] at hnames
    simp only [filpOpen, kernPath_follow_error hmiss, missed] at hret hnames
    cases hroom : roomFor (withMem s as').kmalloc n with
    | false =>
      simp only [hroom] at hret
      exact absurd hret.symm (error_ne_enoent (by decide))
    | true =>
      have hlt := hm.dir_lt hs
      have hask : (dir, n) ∉ asked (edge s) s.rootDentry (components (dirName path)) :=
        fun h => edge_ne_none_of_ok _ hm.parent _ h hedge
      have hask' : (dir, n) ∉ asked (edge (addDentry s dir n)) s.rootDentry (components (dirName path)) := by
        rw [hs.asked_addDentry hlt hask]
        exact hask
      have hlink : isSymlink (addDentry s dir n) dir = false := by
        rw [isSymlink, inode_addDentry hlt, if_neg (Nat.ne_of_lt hlt)]
        exact hm.nolink
      have hpos : (addDentry s dir n).inode dir ≠ none := by
        rw [inode_addDentry hlt, if_neg (Nat.ne_of_lt hlt)]
        exact hm.positive
      have hspec := openCreate_spec (s := withMem (addDentry s dir n) (leftFor as' n)) ((hs.add hlt n).mem _) hm.base
        hm.proper hm.comps hpre hask' hlink hpos flags mode
      simp only [hroom, if_true, hcreat, ne_eq, not_false_eq_true, and_self] at hret hnames
      rcases hspec with h | h
      · exact h hret.symm
      · exact h hnames.symm

/-- **A lookup is invisible to a maker when it leaves no dentry**; and for a missing entry of an existing directory only
then, whatever the allocator answers. -/
theorem invisible_iff (hs : Wf s) (path : List Char) (look : Look) (as : List Bool) (make : Make) (as' : List Bool) :
    (NoTrace s path as → Invisible s path look as make as') ∧
      ∀ dir n, MissingEntry s path dir n → (Invisible s path look as make as' ↔ NoTrace s path as) := by
  have hsuff : NoTrace s path as → Invisible s path look as make as' := by
    intro h
    obtain ⟨as₁, hrun⟩ := look.run_of_noTrace hs h
    rw [Invisible, hrun]
    exact ⟨rfl, SameTree.refl _⟩
  refine ⟨hsuff, fun dir n hm => ⟨fun h => ?_, hsuff⟩⟩
  by_contra htrace
  obtain ⟨hedge, as₁, hrun⟩ := hm.run_look hs look htrace
  rw [Invisible, hrun] at h
  exact hm.visible hs hedge make as' h

/-- Without memory for the dentry, and with it. -/
theorem invisible_iff_root : Invisible (rootfs []) ['/', 'a'] .stat [false] (.mkdir 0x1ED) [] ∧
    (Invisible (rootfs []) ['/', 'a'] .stat [] (.mkdir 0x1ED) [] ↔ NoTrace (rootfs []) ['/', 'a'] []) :=
  ⟨(invisible_iff (wf_rootfs []) ['/', 'a'] .stat [false] (.mkdir 0x1ED) []).1 fun _ _ => rfl,
    (invisible_iff (wf_rootfs []) ['/', 'a'] .stat [] (.mkdir 0x1ED) []).2 0 ['a']
      ⟨by decide, by decide, by decide, by rfl, by decide, by decide, by decide⟩⟩

/-- `stat("/a")`, which fails, makes `mkdir("/a")` say that it exists. -/
theorem not_invisible_stat : Wf (rootfs []) ∧ names (rootfs []) (components ['/', 'a']) = none ∧
    ¬Invisible (rootfs []) ['/', 'a'] .stat [] (.mkdir 0x1ED) [] := by
  refine ⟨wf_rootfs [], by decide, fun h => ?_⟩
  have hret := Ret.code.inj h.1
  revert hret
  decide

end Vfs
end Pico
