import Mathlib.Data.Finset.Card
import Picomimi.VfsRename
import Picomimi.VfsResolve
/-!
# VfsNlink — link counts and the names they count

`vfs_mkdir` counts the new directory in its parent once more than `ramfs_mkdir` has, and `ramfs_unlink` and `ramfs_rmdir` take
from the count and leave the dentry.  So the counts are right for as long as nothing is made a directory and nothing is removed
(`nlinks_iff`).
-/
namespace Pico
namespace Vfs

open Lib

variable {s t u : Fs} {c d e i j k p v : Nat} {m n : Name} {path oldpath newpath : List Char} {r : Except Int Nat}

/-! ## The counts -/

/-- The dentries of the inode. -/
def nameCount (s : Fs) (i : Nat) : Nat := ((Finset.range s.nrDentry).filter fun d => s.inode d = some i).card

def isDirectory (s : Fs) (d : Nat) : Bool := (s.inode d).any fun i => sIsdir (s.inodes i).iMode

/-- The directories in the lists of the dentries of the inode. -/
def subdirCount (s : Fs) (i : Nat) : Nat :=
  ((Finset.range s.nrDentry).filter fun d =>
    isDirectory s d = true ∧ d ∈ s.subdirs (s.parent d) ∧ s.inode (s.parent d) = some i).card

/-- **The link counts are right.** -/
structure LinkLaws (s : Fs) : Prop where
  file : ∀ i, i < s.nrInode → sIsdir (s.inodes i).iMode = false → (s.inodes i).iNlink = nameCount s i
  dir : ∀ i, i < s.nrInode → sIsdir (s.inodes i).iMode = true → (s.inodes i).iNlink = 2 + subdirCount s i

/-! ## The calls -/

/-- The calls that are counted: those of `Call` without `mknod`, `symlink` and `mount`. -/
def counted : Call → Bool
  | .mknod _ _ _ => false
  | .symlink _ _ => false
  | .mount _ => false
  | _ => true

def nlinkMachine : Machine Fs Call where
  init s := ∃ as, s = rootfs as
  step s a := if counted a then some (a.run s) else none

/-- `mkdir` can make the directory: in a ramfs directory, under a new name, and there is memory. -/
def CanMkdir (s : Fs) (path : List Char) : Prop := ∃ p i, resolve s (walked true (components path)) = .ok p ∧
  baseName path ≠ [] ∧ dLookup s p (baseName path) = none ∧ s.inode p = some i ∧ (s.inodes i).iOp = .ramfsDir ∧
  roomFor s.kmalloc (baseName path) = true ∧ answer (leftFor s.kmalloc (baseName path)) = true

/-- `unlink` can remove the file: the path leads to one. -/
def CanUnlink (s : Fs) (path : List Char) : Prop :=
  ∃ d i, resolve s (components path) = .ok d ∧ s.inode d = some i ∧ sIsdir (s.inodes i).iMode = false

/-- `rmdir` can remove the directory: the path leads to one without entries. -/
def CanRmdir (s : Fs) (path : List Char) : Prop :=
  ∃ d i, resolve s (components path) = .ok d ∧ s.inode d = some i ∧ sIsdir (s.inodes i).iMode = true ∧ s.subdirs d = []

/-- `link` can make another name of the inode `i`. -/
def CanLink (s : Fs) (oldpath newpath : List Char) (i : Nat) : Prop := ∃ d p, Resolves s true oldpath d ∧ s.inode d = some i ∧
  sIsdir (s.inodes i).iMode = false ∧ resolve s (walked true (components newpath)) = .ok p ∧ s.inode p ≠ none ∧
  roomFor s.kmalloc (baseName newpath) = true

/-- **The counts stay right**: nothing is made a directory, nothing is removed, and no count overflows. -/
def NlinkOk (s : Fs) : Call → Prop
  | .mkdir path _ => ¬CanMkdir s path
  | .unlink path => ¬CanUnlink s path
  | .rmdir path => ¬CanRmdir s path
  | .link oldpath newpath => ∀ i, CanLink s oldpath newpath i → (s.inodes i).iNlink + 1 < 4294967296
  | _ => True

/-! ## Before there are directories -/

/-- **The root is the only directory**, and every other inode has a count for each of its dentries. -/
structure Rooted (s : Fs) : Prop extends Wf s where
  ops : ∀ i, i < s.nrInode → (s.inodes i).iOp = .ramfsDir → i = 0
  dirs : ∀ i, i < s.nrInode → sIsdir (s.inodes i).iMode = true → i = 0
  rootInode : s.inode s.rootDentry = some 0
  only : ∀ d, d < s.nrDentry → s.inode d = some 0 → d = s.rootDentry
  rootDir : sIsdir (s.inodes 0).iMode = true ∧ (s.inodes 0).iOp = .ramfsDir ∧ (s.inodes 0).iNlink = 2
  files : ∀ i, i < s.nrInode → i ≠ 0 → (s.inodes i).iNlink = nameCount s i

theorem rooted_rootfs (as : List Bool) : Rooted (rootfs as) where
  toWf := wf_rootfs as
  ops := fun _ hi _ => Nat.lt_one_iff.1 hi
  dirs := fun _ hi _ => Nat.lt_one_iff.1 hi
  rootInode := rfl
  only := fun _ hd _ => Nat.lt_one_iff.1 hd
  rootDir := ⟨(by decide : sIsdir (sIfdir ||| 0x1ED) = true), rfl, rfl⟩
  files := fun _ hi h0 => absurd (Nat.lt_one_iff.1 hi) h0

theorem Rooted.inode_pos (hs : Rooted s) : 0 < s.nrInode := hs.inode_lt s.rootDentry 0 hs.root.1 hs.rootInode

/-- A directory that is an entry of another is not the root. -/
theorem Wf.not_listed_root (hs : Wf s) : s.rootDentry ∉ s.subdirs (s.parent s.rootDentry) := by
  rw [hs.root.2]
  exact fun h => (hs.child _ _ h).2.1 rfl

theorem isDirectory_iff : isDirectory s d = true ↔ IsDir s d := by
  unfold isDirectory IsDir
  cases s.inode d <;> simp

theorem Rooted.isDir_root (hs : Rooted s) (hd : d < s.nrDentry) (h : IsDir s d) : d = s.rootDentry := by
  obtain ⟨i, hi, hmode⟩ := h
  obtain rfl := hs.dirs i (hs.inode_lt d i hd hi) hmode
  exact hs.only d hd hi

theorem Rooted.subdirCount_eq (hs : Rooted s) (i : Nat) : subdirCount s i = 0 := by
  unfold subdirCount
  rw [Finset.card_eq_zero, Finset.filter_eq_empty_iff]
  rintro d hd ⟨hdir, hlist, -⟩
  obtain rfl := hs.isDir_root (Finset.mem_range.1 hd) (isDirectory_iff.1 hdir)
  exact hs.not_listed_root hlist

theorem Rooted.laws (hs : Rooted s) : LinkLaws s := by
  constructor
  · intro i hi hmode
    refine hs.files i hi ?_
    rintro rfl
    rw [hs.rootDir.1] at hmode
    cases hmode
  · intro i hi hmode
    obtain rfl := hs.dirs i hi hmode
    rw [hs.subdirCount_eq, hs.rootDir.2.2]

/-! ## What keeps the counts -/

theorem nameCount_congr (hnr : t.nrDentry = s.nrDentry) (h : ∀ d, d < s.nrDentry → t.inode d = s.inode d) (i : Nat) :
    nameCount t i = nameCount s i := by
  unfold nameCount
  rw [hnr]
  refine congrArg Finset.card (Finset.filter_congr fun d hd => ?_)
  rw [h d (Finset.mem_range.1 hd)]

/-- A dentry that gets the inode is one more. -/
theorem nameCount_fill (hd : d < s.nrDentry) (hneg : s.inode d = none) (i j : Nat) :
    nameCount (dInstantiate s d (some i)) j = nameCount s j + if j = i then 1 else 0 := by
  have hnr : (dInstantiate s d (some i)).nrDentry = s.nrDentry := rfl
  by_cases hj : j = i
  · have hset : ((Finset.range s.nrDentry).filter fun v => (dInstantiate s d (some i)).inode v = some j) =
        insert d ((Finset.range s.nrDentry).filter fun v => s.inode v = some j) := by
      ext v
      rw [Finset.mem_insert, Finset.mem_filter, Finset.mem_filter, inode_dInstantiate, Finset.mem_range]
      by_cases hv : v = d
      · simp [hv, hd, hj]
      · simp [hv]
    rw [if_pos hj, nameCount, hnr, hset, Finset.card_insert_of_notMem]
    · rfl
    · rw [Finset.mem_filter, hneg]
      exact fun h => nomatch h.2
  · rw [if_neg hj, Nat.add_zero]
    unfold nameCount
    rw [hnr]
    refine congrArg Finset.card (Finset.filter_congr fun v _ => ?_)
    rw [inode_dInstantiate]
    by_cases hv : v = d
    · rw [if_pos hv, hv, hneg]
      exact iff_of_false (fun h => hj (Option.some.inj h).symm) (fun h => nomatch h)
    · rw [if_neg hv]

theorem Wf.nameCount_new (hs : Wf s) (hi : s.nrInode ≤ i) : nameCount s i = 0 := by
  unfold nameCount
  rw [Finset.card_eq_zero, Finset.filter_eq_empty_iff]
  intro d hd h
  exact absurd (hs.inode_lt d i (Finset.mem_range.1 hd) h) (Nat.not_lt.2 hi)

/-- A state with the same inodes, whose new dentries are negative. -/
theorem Rooted.congr (hs : Rooted s) (ht : Wf t) (hroot : t.rootDentry = s.rootDentry) (hin : t.inodes = s.inodes)
    (hni : t.nrInode = s.nrInode) (hino : ∀ d, d < s.nrDentry → t.inode d = s.inode d)
    (hcount : ∀ i, nameCount t i = nameCount s i) (hnew : ∀ d, d < t.nrDentry → ¬d < s.nrDentry → t.inode d = none) :
    Rooted t where
  toWf := ht
  ops := by rw [hin, hni]; exact hs.ops
  dirs := by rw [hin, hni]; exact hs.dirs
  rootInode := by rw [hroot, hino _ hs.root.1]; exact hs.rootInode
  only := fun d hd h => by
    by_cases hlt : d < s.nrDentry
    · rw [hino d hlt] at h
      rw [hroot]
      exact hs.only d hlt h
    · rw [hnew d hd hlt] at h
      cases h
  rootDir := by rw [hin]; exact hs.rootDir
  files := by
    intro i hi h0
    rw [hin, hcount]
    exact hs.files i (hni ▸ hi) h0

theorem Grow.rooted (h : Grow s t) (hs : Rooted s) : Rooted t := by
  have ht := h.wf hs.toWf
  cases h with
  | mem as => exact hs.congr ht rfl rfl rfl (fun _ _ => rfl) (fun _ => rfl) fun d hd hlt => absurd hd hlt
  | add p n hp =>
    have hnew : (addDentry s p n).inode s.nrDentry = none := inode_addDentry_new s p n
    have hold : ∀ d, d < s.nrDentry → (addDentry s p n).inode d = s.inode d := fun d hd =>
      (inode_addDentry hp d).trans (if_neg (Nat.ne_of_lt hd))
    refine hs.congr ht rfl rfl rfl hold (fun i => ?_) fun d hd hlt => ?_
    · have hnr : (addDentry s p n).nrDentry = s.nrDentry + 1 := rfl
      unfold nameCount
      rw [hnr, Finset.range_add_one, Finset.filter_insert, hnew, if_neg nofun]
      refine congrArg Finset.card (Finset.filter_congr fun d hd => ?_)
      rw [hold d (Finset.mem_range.1 hd)]
    · have heq : d = s.nrDentry := Nat.le_antisymm (Nat.lt_succ_iff.1 hd) (Nat.not_lt.1 hlt)
      rw [heq]
      exact hnew

theorem Grows.rooted (h : Grows s t) (hs : Rooted s) : Rooted t := by
  induction h with
  | refl => exact hs
  | tail _ h ih => exact h.rooted ih

/-- An inode that no dentry has. -/
theorem Rooted.newInode (hs : Rooted s) :
    Rooted { s.setInode s.nrInode blankInode with nrInode := s.nrInode + 1 } := by
  have hold : ∀ i, i < s.nrInode → Function.update s.inodes s.nrInode blankInode i = s.inodes i := fun i hi =>
    Function.update_of_ne (Nat.ne_of_lt hi) _ _
  have hnew : Function.update s.inodes s.nrInode blankInode s.nrInode = blankInode := Function.update_self _ _ _
  have hlast : ∀ i, i < s.nrInode + 1 → i = s.nrInode ∨ i < s.nrInode := fun i hi =>
    (Nat.lt_succ_iff.1 hi).eq_or_lt
  refine ⟨(Edit.newInode (P := False) s).wf hs.toWf, fun i hi h => ?_, fun i hi h => ?_, hs.rootInode, hs.only, ?_,
    fun i hi h0 => ?_⟩
  · rcases hlast i hi with rfl | hi
    · change (Function.update s.inodes s.nrInode blankInode s.nrInode).iOp = _ at h
      rw [hnew] at h
      cases h
    · change (Function.update s.inodes s.nrInode blankInode i).iOp = _ at h
      rw [hold i hi] at h
      exact hs.ops i hi h
  · rcases hlast i hi with rfl | hi
    · change sIsdir (Function.update s.inodes s.nrInode blankInode s.nrInode).iMode = _ at h
      rw [hnew] at h
      cases h
    · change sIsdir (Function.update s.inodes s.nrInode blankInode i).iMode = _ at h
      rw [hold i hi] at h
      exact hs.dirs i hi h
  · show sIsdir (Function.update s.inodes s.nrInode blankInode 0).iMode = true ∧
      (Function.update s.inodes s.nrInode blankInode 0).iOp = .ramfsDir ∧
      (Function.update s.inodes s.nrInode blankInode 0).iNlink = 2
    rw [hold 0 hs.inode_pos]
    exact hs.rootDir
  · show (Function.update s.inodes s.nrInode blankInode i).iNlink = nameCount s i
    rcases hlast i hi with rfl | hi
    · rw [hnew, hs.nameCount_new (Nat.le_refl _)]
      rfl
    · rw [hold i hi]
      exact hs.files i hi h0

/-- **A count changes with the names**: a negative dentry gets an inode other than the root's, which is made to fit. -/
theorem Rooted.fill (hs : Rooted s) (hd : d < s.nrDentry) (hneg : s.inode d = none) (hp : s.inode (s.parent d) ≠ none)
    (hi : i < s.nrInode) (h0 : i ≠ 0) {x : Inode} (hop : x.iOp ≠ .ramfsDir) (hmode : sIsdir x.iMode = false)
    (hx : x.iNlink = nameCount s i + 1) : Rooted (dInstantiate (s.setInode i x) d (some i)) := by
  have hwf : Wf (dInstantiate (s.setInode i x) d (some i)) :=
    hs.toWf.fill hp ⟨rfl, rfl, rfl, rfl⟩ (Nat.le_refl _) hi
  have hroot : s.rootDentry ≠ d := by
    rintro rfl
    exact nomatch hs.rootInode.symm.trans hneg
  have hother : ∀ j, j ≠ i → Function.update s.inodes i x j = s.inodes j := fun j hj => Function.update_of_ne hj _ _
  have hself : Function.update s.inodes i x i = x := Function.update_self _ _ _
  refine ⟨hwf, fun j hj h => ?_, fun j hj h => ?_, ?_, fun v hv h => ?_, ?_, fun j hj hj0 => ?_⟩
  · change (Function.update s.inodes i x j).iOp = _ at h
    by_cases hji : j = i
    · rw [hji, hself] at h
      exact absurd h hop
    · rw [hother j hji] at h
      exact hs.ops j hj h
  · change sIsdir (Function.update s.inodes i x j).iMode = _ at h
    by_cases hji : j = i
    · rw [hji, hself, hmode] at h
      cases h
    · rw [hother j hji] at h
      exact hs.dirs j hj h
  · rw [inode_dInstantiate]
    exact (if_neg hroot).trans hs.rootInode
  · rw [inode_dInstantiate] at h
    split at h
    · exact absurd (Option.some.inj h) h0
    · exact hs.only v hv h
  · show sIsdir (Function.update s.inodes i x 0).iMode = true ∧ (Function.update s.inodes i x 0).iOp = .ramfsDir ∧
      (Function.update s.inodes i x 0).iNlink = 2
    rw [hother 0 (Ne.symm h0)]
    exact hs.rootDir
  · have hcount := nameCount_fill (s := s.setInode i x) hd hneg i j
    rw [hcount]
    show (Function.update s.inodes i x j).iNlink = nameCount s j + _
    by_cases hji : j = i
    · rw [if_pos hji, hji, hself]
      exact hx
    · rw [if_neg hji, hother j hji]
      exact hs.files j hj hj0

theorem Rooted.withMem (hs : Rooted s) (as : List Bool) : Rooted (Vfs.withMem s as) := (Grow.mem s as).rooted hs

/-- **A new file has one name.** -/
theorem Rooted.ramfsCreate (hs : Rooted s) (hd : d < s.nrDentry) (hneg : s.inode d = none) (hp : s.inode (s.parent d) ≠ none)
    (mode : Nat) : Rooted (ramfsCreate s d mode).2 := by
  have hfile : ∀ mode, sIsdir (mode ||| sIfreg) = false := by
    intro mode
    unfold sIsdir sIfmt sIfreg sIfdir
    rw [beq_eq_false_iff_ne]
    intro h
    have hbit : Nat.testBit ((mode ||| 0x8000) &&& 0xF000) 15 = Nat.testBit 0x4000 15 := congrArg (fun m => Nat.testBit m 15) h
    rw [Nat.testBit_and, Nat.testBit_or, (by decide : Nat.testBit 0x8000 15 = true), (by decide : Nat.testBit 0xF000 15 = true),
      (by decide : Nat.testBit 0x4000 15 = false), Bool.or_true] at hbit
    cases hbit
  simp only [Vfs.ramfsCreate, newInode_eq]
  cases answer s.kmalloc with
  | false => exact hs.withMem _
  | true =>
    have hnew := (hs.withMem s.kmalloc.tail).newInode
    simp only [if_true, kmallocOk_eq]
    generalize answer _ = room
    cases room with
    | false => exact hnew.withMem _
    | true =>
      have hcount : nameCount s s.nrInode = 0 := hs.nameCount_new (Nat.le_refl _)
      have hfill := (hnew.withMem s.kmalloc.tail.tail).fill (i := s.nrInode)
        (x := ⟨mode ||| sIfreg, s.createIno, 1, 0, 0, .none, .ramfsFile, .ramfs⟩) hd hneg hp (Nat.lt_succ_self _)
        (Nat.ne_of_gt hs.inode_pos) (fun h => by cases h) (hfile mode) (congrArg (· + 1) hcount.symm)
      exact hfill.congr (hfill.toWf.congr (fun _ => ⟨rfl, rfl, rfl⟩) rfl rfl rfl (Nat.le_refl _)) rfl rfl rfl (fun _ _ => rfl) (fun _ => rfl) fun _ h h' => absurd h h'

/-! ## The calls -/

theorem Grow.inode_eq (h : Grow s t) (hd : d < s.nrDentry) : t.inode d = s.inode d := by
  cases h with
  | mem as => rfl
  | add p n hp => exact (inode_addDentry hp d).trans (if_neg (Nat.ne_of_lt hd))

theorem Grows.inode_eq (h : Grows s t) (hd : d < s.nrDentry) : t.inode d = s.inode d := by
  induction h with
  | refl => rfl
  | tail hst h ih => exact (h.inode_eq (Nat.lt_of_lt_of_le hd (Grows.le hst))).trans ih

/-- **A call that looks for the parent of a new name** finds it in the state as it is. -/
theorem kernPath_parent_cases (s : Fs) (path : List Char) : (∃ err t, kernPath s path lookupParent = (.error err, t)) ∨
    ∃ p, resolve s (walked true (components path)) = .ok p ∧ kernPath s path lookupParent = (.ok p, s) := by
  have heq := kernPath_eq s path true
  cases hr : resolve s (walked true (components path)) with
  | ok p =>
    rw [hr] at heq
    exact .inr ⟨p, rfl, heq⟩
  | error q =>
    rw [hr] at heq
    obtain ⟨err, t, hmissed⟩ := missed_error s q
    exact .inl ⟨err, t, heq.trans hmissed⟩

theorem kernPath_none_cases (s : Fs) (path : List Char) : (∃ err t, kernPath s path lookupNone = (.error err, t)) ∨
    ∃ d, resolve s (components path) = .ok d ∧ kernPath s path lookupNone = (.ok d, s) := by
  have heq := kernPath_eq s path false
  cases hr : resolve s (walked false (components path)) with
  | ok p =>
    rw [hr] at heq
    exact .inr ⟨p, hr, heq⟩
  | error q =>
    rw [hr] at heq
    obtain ⟨err, t, hmissed⟩ := missed_error s q
    exact .inl ⟨err, t, heq.trans hmissed⟩

theorem Wf.grows_of_kernPath (hs : Wf s) {flags : LookupFlags} (h : Vfs.kernPath s path flags = (r, t)) : Grows s t := by
  have hk := (hs.kernPath path flags).grows
  rwa [h] at hk

/-- The new negative dentry of a maker. -/
theorem Rooted.addDentry (hs : Rooted s) (hp : p < s.nrDentry) (hpos : s.inode p ≠ none) (as : List Bool) (n : Name) :
    ∃ u, Vfs.addDentry (Vfs.withMem s as) p n = u ∧ Rooted u ∧ u.inodes = s.inodes ∧ u.nrInode = s.nrInode ∧
      u.nrDentry = s.nrDentry + 1 ∧ u.kmalloc = as ∧ u.inode s.nrDentry = none ∧ u.parent s.nrDentry = p ∧
      u.inode (u.parent s.nrDentry) ≠ none ∧ ∀ d, d < s.nrDentry → u.inode d = s.inode d := by
  have hgrow : Grow (Vfs.withMem s as) (Vfs.addDentry (Vfs.withMem s as) p n) := .add _ _ _ hp
  have hpar : (Vfs.addDentry (Vfs.withMem s as) p n).parent s.nrDentry = p :=
    (parent_addDentry (s := Vfs.withMem s as) hp _).trans (if_pos rfl)
  have hold : ∀ d, d < s.nrDentry → (Vfs.addDentry (Vfs.withMem s as) p n).inode d = s.inode d := fun d hd => hgrow.inode_eq hd
  refine ⟨_, rfl, hgrow.rooted (hs.withMem as), rfl, rfl, rfl, rfl, inode_addDentry_new _ _ _, hpar, ?_, hold⟩
  rw [hpar, hold p hp]
  exact hpos

/-- **A link that can be made is.** -/
theorem sysLink_of_can (hs : Wf s) (h : CanLink s oldpath newpath i) : i < s.nrInode ∧ sIsdir (s.inodes i).iMode = false ∧
    ∃ p, p < s.nrDentry ∧ s.inode p ≠ none ∧ (sysLink s oldpath newpath).2 =
      incNlink (dInstantiate (addDentry (withMem s (leftFor s.kmalloc (baseName newpath))) p (baseName newpath)) s.nrDentry
        (some i)) i := by
  obtain ⟨d, p, hres, hi, hmode, hp, hpos, hroom⟩ := h
  have hd := hres.lt hs
  have hpt := hs.resolve_lt hp
  refine ⟨hs.inode_lt d i hd hi, hmode, p, hpt, hpos, ?_⟩
  have hgrow : Grow (withMem s (leftFor s.kmalloc (baseName newpath)))
    (addDentry (withMem s (leftFor s.kmalloc (baseName newpath))) p (baseName newpath)) := .add _ _ _ hpt
  obtain ⟨j, hj⟩ := Option.ne_none_iff_exists'.1 hpos
  have hi' := (hgrow.inode_eq hd).trans hi
  have hj' := (hgrow.inode_eq hpt).trans hj
  have hmode' : sIsdir ((addDentry (withMem s (leftFor s.kmalloc (baseName newpath))) p (baseName newpath)).inodes i).iMode =
    false := hmode
  rw [sysLink, show kernPath s oldpath lookupFollow = (.ok d, s) from kernPath_of_resolves hs hres]
  simp only [kernPath_parent_ok hp, dAlloc_eq, hroom, if_true, vfsLink, hi', hj', hmode', Bool.false_eq_true, if_false]

/-- **A link that cannot be made** leaves negative dentries. -/
theorem sysLink_cases (hs : Wf s) (oldpath newpath : List Char) :
    Grows s (sysLink s oldpath newpath).2 ∨ ∃ i, CanLink s oldpath newpath i := by
  unfold sysLink
  cases hold : kernPath s oldpath lookupFollow with
  | mk r t =>
    have hst := hs.grows_of_kernPath hold
    have htwf := Grows.wf hst hs
    cases r with
    | error err => exact .inl hst
    | ok oldD =>
      dsimp only
      have hoD : oldD < t.nrDentry := by
        have hk := (hs.kernPath oldpath lookupFollow).lt oldD
        rw [hold] at hk
        exact hk rfl
      rcases kernPath_parent_cases t newpath with ⟨err, u, hu⟩ | ⟨p, hp, hu⟩
      · rw [hu]
        exact .inl (hst.trans (htwf.grows_of_kernPath hu))
      · rw [hu]
        dsimp only
        have hpt : p < t.nrDentry := htwf.resolve_lt hp
        cases ha : dAlloc t p (baseName newpath) with
        | mk o w =>
          have htw : Grows t w := by
            have h := dAlloc_grows hpt (baseName newpath)
            rwa [ha] at h
          cases o with
          | none => exact .inl (hst.trans htw)
          | some d =>
            dsimp only [vfsLink]
            rw [htw.inode_eq hoD, htw.inode_eq hpt]
            cases hi : t.inode oldD with
            | none => exact .inl (hst.trans htw)
            | some i =>
              cases hj : t.inode p with
              | none => exact .inl (hst.trans htw)
              | some j =>
                dsimp only
                split
                · exact .inl (hst.trans htw)
                · rename_i hmode
                  have hres : Resolves s true oldpath oldD := by
                    refine ⟨congrArg Prod.fst hold, ?_⟩
                    rw [show kernPath s oldpath ⟨false, true⟩ = _ from hold]
                    exact fun hnone => nomatch hi.symm.trans hnone
                  have hsame : t = s := congrArg Prod.snd (hold.symm.trans (kernPath_of_resolves hs hres))
                  subst hsame
                  have hroom : roomFor t.kmalloc (baseName newpath) = true := by
                    rw [dAlloc_eq] at ha
                    by_contra hno
                    rw [if_neg hno] at ha
                    cases ha
                  have hinodes : (w.inodes i).iMode = (t.inodes i).iMode := by
                    rw [dAlloc_eq, if_pos hroom] at ha
                    cases ha
                    rfl
                  rw [hinodes] at hmode
                  exact .inr ⟨i, oldD, p, hres, hi, Bool.eq_false_iff.2 hmode, hp, (fun hnone => nomatch hj.symm.trans hnone), hroom⟩

/-- **What a link makes of the counts.** -/
theorem Rooted.sysLink_made (hs : Rooted s) (h : CanLink s oldpath newpath i) : i < s.nrInode ∧
    sIsdir (s.inodes i).iMode = false ∧ ((s.inodes i).iNlink + 1 < 4294967296 → Rooted (sysLink s oldpath newpath).2) ∧
    (¬(s.inodes i).iNlink + 1 < 4294967296 → ¬LinkLaws (sysLink s oldpath newpath).2) := by
  obtain ⟨hi, hmode, p, hp, hpos, heq⟩ := sysLink_of_can hs.toWf h
  have h0 : i ≠ 0 := by
    rintro rfl
    rw [hs.rootDir.1] at hmode
    cases hmode
  obtain ⟨u, hadd, hu, hin, hni, hnr, -, hneg, -, hparpos, -⟩ :=
    hs.addDentry hp hpos (leftFor s.kmalloc (baseName newpath)) (baseName newpath)
  rw [heq, hadd]
  have hnew : s.nrDentry < u.nrDentry := hnr ▸ Nat.lt_succ_self _
  have hcount : (s.inodes i).iNlink = nameCount u i := by
    rw [← hin]
    exact hu.files i (hni ▸ hi) h0
  refine ⟨hi, hmode, fun hlt => ?_, fun hlt hlaws => ?_⟩
  · refine hu.fill (x := { u.inodes i with iNlink := ((u.inodes i).iNlink + 1) % 4294967296 }) hnew hneg hparpos (hni ▸ hi) h0
      (fun hop => h0 ?_) ?_ ?_
    · exact hu.ops i (hni ▸ hi) hop
    · rw [hin]
      exact hmode
    · rw [hin, Nat.mod_eq_of_lt hlt, hcount]
  · have hfile := hlaws.file i (show i < u.nrInode from hni ▸ hi)
    have hself : ((incNlink (dInstantiate u s.nrDentry (some i)) i).inodes i) =
        { u.inodes i with iNlink := ((u.inodes i).iNlink + 1) % 4294967296 } := Function.update_self _ _ _
    have hnames : nameCount (incNlink (dInstantiate u s.nrDentry (some i)) i) i = nameCount u i + 1 :=
      (nameCount_fill hnew hneg i i).trans (congrArg _ (if_pos rfl))
    rw [hself, hnames, hin] at hfile
    have hlink := hfile hmode
    have hmod := Nat.mod_lt ((s.inodes i).iNlink + 1) (by decide : 0 < 4294967296)
    dsimp only at hlink
    omega

/-- **A file that is removed keeps its dentry.** -/
theorem Rooted.not_laws_of_drop (hs : Rooted s) (hd : d < s.nrDentry) (hi : s.inode d = some i)
    (hmode : sIsdir (s.inodes i).iMode = false) (hnr : t.nrDentry = s.nrDentry) (hni : t.nrInode = s.nrInode)
    (hino : ∀ v, t.inode v = s.inode v) (hin : t.inodes i = { s.inodes i with iNlink := (s.inodes i).iNlink - 1 }) :
    ¬LinkLaws t := by
  intro hlaws
  have hlt := hs.inode_lt d i hd hi
  have hsame := nameCount_congr hnr (fun v _ => hino v) i
  have hfile := hlaws.file i (hni ▸ hlt)
  rw [hin, hsame] at hfile
  have hnlink : (s.inodes i).iNlink = nameCount s i := hs.laws.file i hlt hmode
  have hpos : 0 < nameCount s i :=
    Finset.card_pos.2 ⟨d, Finset.mem_filter.2 ⟨Finset.mem_range.2 hd, hi⟩⟩
  have hleft := hfile hmode
  dsimp only at hleft
  omega

theorem sysUnlink_cases (hs : Wf s) (path : List Char) : Grows s (sysUnlink s path).2 ∨ CanUnlink s path := by
  unfold sysUnlink
  rcases kernPath_none_cases s path with ⟨err, t, h⟩ | ⟨d, hd, h⟩
  · rw [h]
    exact .inl (hs.grows_of_kernPath h)
  · rw [h]
    dsimp only [vfsUnlink]
    cases hj : s.inode (s.parent d) with
    | none => exact .inl .refl
    | some j =>
      cases hi : s.inode d with
      | none => exact .inl .refl
      | some i =>
        dsimp only
        split
        · exact .inl .refl
        · rename_i hmode
          exact .inr ⟨d, i, hd, hi, Bool.eq_false_iff.2 hmode⟩

theorem Rooted.not_sysUnlink (hs : Rooted s) (h : CanUnlink s path) : ¬LinkLaws (sysUnlink s path).2 := by
  obtain ⟨d, i, hd, hi, hmode⟩ := h
  have hlt := hs.resolve_lt hd
  have hparent := hs.positive d hlt fun hnone => nomatch hi.symm.trans hnone
  obtain ⟨j, hj⟩ := Option.ne_none_iff_exists'.1 hparent
  unfold sysUnlink
  rw [kernPath_none_ok hd]
  simp only [vfsUnlink, hj, hi, hmode, Bool.false_eq_true, if_false]
  split
  · exact hs.not_laws_of_drop hlt hi hmode rfl rfl (fun _ => rfl) (Function.update_self _ _ _)
  · exact hs.not_laws_of_drop hlt hi hmode rfl rfl (fun v => inode_listDelInit s d v) (Function.update_self _ _ _)

theorem sysRmdir_cases (hs : Wf s) (path : List Char) : Grows s (sysRmdir s path).2 ∨ CanRmdir s path := by
  unfold sysRmdir
  rcases kernPath_none_cases s path with ⟨err, t, h⟩ | ⟨d, hd, h⟩
  · rw [h]
    exact .inl (hs.grows_of_kernPath h)
  · rw [h]
    dsimp only [vfsRmdir]
    cases hi : s.inode d with
    | none => exact .inl .refl
    | some i =>
      rw [if_neg nofun]
      cases hj : s.inode (s.parent d) with
      | none => exact .inl .refl
      | some j =>
        dsimp only
        split
        · exact .inl .refl
        · rename_i hmode
          split
          · exact .inl .refl
          · rename_i hsub
            exact .inr ⟨d, i, hd, hi, Decidable.not_not.1 hmode, Decidable.not_not.1 hsub⟩

/-- **`rmdir` of the root** leaves it, with a count of 0. -/
theorem Rooted.not_sysRmdir (hs : Rooted s) (h : CanRmdir s path) : ¬LinkLaws (sysRmdir s path).2 := by
  obtain ⟨d, i, hd, hi, hmode, hsub⟩ := h
  have hlt := hs.resolve_lt hd
  obtain rfl := hs.isDir_root hlt ⟨i, hi, hmode⟩
  have hramfs : isRamfsDir s (some 0) = true := by simp [isRamfsDir, hs.rootDir.2.1]
  have heq : (sysRmdir s path).2 = dropNlink (dropNlink (dropNlink s 0) 0) 0 := by
    have hmode0 := hs.rootDir.1
    unfold sysRmdir
    rw [kernPath_none_ok hd]
    simp [vfsRmdir, ramfsRmdir, hs.root.2, hs.rootInode, hmode0, hsub, hramfs]
  rw [heq]
  intro hlaws
  have hin : (dropNlink (dropNlink (dropNlink s 0) 0) 0).inodes 0 = { s.inodes 0 with iNlink := 0 } := by
    simp [dropNlink, Fs.setInode, hs.rootDir.2.2]
  have hdir := hlaws.dir 0 hs.inode_pos
  rw [hin] at hdir
  have hnlink := hdir hs.rootDir.1
  dsimp only at hnlink
  omega

theorem sysMkdir_cases (hs : Wf s) (path : List Char) (mode : Nat) : Grows s (sysMkdir s path mode).2 ∨ CanMkdir s path := by
  unfold sysMkdir
  rcases kernPath_parent_cases s path with ⟨err, t, h⟩ | ⟨p, hp, h⟩
  · rw [h]
    exact .inl (hs.grows_of_kernPath h)
  · rw [h]
    dsimp only
    have hpt := hs.resolve_lt hp
    split
    · exact .inl .refl
    · rename_i hbase
      cases hl : dLookup s p (baseName path) with
      | some c => exact .inl .refl
      | none =>
        dsimp only
        have hgrows := dAlloc_grows hpt (baseName path)
        rw [dAlloc_eq] at hgrows ⊢
        cases hroom : roomFor s.kmalloc (baseName path) with
        | false =>
          rw [hroom] at hgrows
          exact .inl hgrows
        | true =>
          rw [hroom] at hgrows
          simp only [if_true] at hgrows ⊢
          rw [Grows.inode_eq hgrows hpt]
          cases hi : s.inode p with
          | none => exact .inl hgrows
          | some i =>
            dsimp only [vfsMkdir]
            split
            · exact .inl hgrows
            · rename_i hramfs
              have hop : (s.inodes i).iOp = .ramfsDir := by
                have h := Decidable.not_not.1 hramfs
                exact of_decide_eq_true h
              cases hans : answer (leftFor s.kmalloc (baseName path)) with
              | true => exact .inr ⟨p, i, hp, hbase, hl, hi, hop, hroom, hans⟩
              | false =>
                have hans' : answer (addDentry (withMem s (leftFor s.kmalloc (baseName path))) p (baseName path)).kmalloc = false :=
                  hans
                simp only [ramfsMkdir, newInode_eq, hans', Bool.false_eq_true, if_false]
                exact .inl (hgrows.tail (.mem _ _))

/-- The new directory is counted twice in its parent. -/
theorem vfsMkdir_made (hroom : answer s.kmalloc = true) (hop : (s.inodes i).iOp = .ramfsDir) (hi : i < s.nrInode) (mode : Nat) :
    ((vfsMkdir s (some i) d mode).2.inodes i).iNlink = (((s.inodes i).iNlink + 1) % 4294967296 + 1) % 4294967296 ∧
    (vfsMkdir s (some i) d mode).2.nrDentry = s.nrDentry ∧ (vfsMkdir s (some i) d mode).2.nrInode = s.nrInode + 1 ∧
    (vfsMkdir s (some i) d mode).2.rootDentry = s.rootDentry ∧
    (∀ c, c ≠ d → (vfsMkdir s (some i) d mode).2.inode c = s.inode c) ∧
    ∀ j, j < s.nrInode → ((vfsMkdir s (some i) d mode).2.inodes j).iMode = (s.inodes j).iMode := by
  have hramfs : isRamfsDir s (some i) = true := by simp [isRamfsDir, hop]
  have hne : i ≠ s.nrInode := Nat.ne_of_lt hi
  simp only [vfsMkdir, hramfs, not_true_eq_false, if_false, ramfsMkdir, newInode_eq, hroom, if_true, inode_dInstantiate]
  refine ⟨?_, rfl, rfl, rfl, fun c hc => ?_, fun j hj => ?_⟩
  · simp [incNlink, dInstantiate, Fs.setDentry, Fs.setInode, withMem, Function.update_of_ne hne]
  · exact (inode_dInstantiate _ d _ c).trans (if_neg hc)
  · have hj' : j ≠ s.nrInode := Nat.ne_of_lt hj
    by_cases hji : j = i
    · simp [incNlink, dInstantiate, Fs.setDentry, Fs.setInode, withMem, Function.update_of_ne hne, hji]
    · simp [incNlink, dInstantiate, Fs.setDentry, Fs.setInode, withMem, Function.update_of_ne hj', Function.update_of_ne hji]

/-- **A directory made breaks the count of its parent.** -/
theorem Rooted.not_sysMkdir (hs : Rooted s) (h : CanMkdir s path) (mode : Nat) : ¬LinkLaws (sysMkdir s path mode).2 := by
  obtain ⟨p, i, hp, hbase, hl, hi, hop, hroom, hans⟩ := h
  have hpt := hs.resolve_lt hp
  have hpos : s.inode p ≠ none := fun hnone => nomatch hi.symm.trans hnone
  obtain rfl := hs.ops i (hs.inode_lt p i hpt hi) hop
  obtain ⟨u, hadd, hu, hin, hni, hnr, hmem, -, -, -, hold⟩ := hs.addDentry hpt hpos (leftFor s.kmalloc (baseName path)) (baseName path)
  have heq : (sysMkdir s path mode).2 = (vfsMkdir u (some 0) s.nrDentry mode).2 := by
    unfold sysMkdir
    simp only [kernPath_parent_ok hp, if_neg hbase, hl, dAlloc_eq, hroom, if_true, hadd, hold p hpt, hi]
  have hwf : Wf (sysMkdir s path mode).2 := Edits.wf (hs.toWf.sysMkdir_edits path mode : Edits False _ _) hs.toWf
  rw [heq] at hwf ⊢
  obtain ⟨hnlink, htnr, htni, htroot, hino, hmode⟩ := vfsMkdir_made (d := s.nrDentry) (hmem ▸ hans) hu.rootDir.2.1 hu.inode_pos mode
  generalize (vfsMkdir u (some 0) s.nrDentry mode).2 = t at hwf hnlink htnr htni htroot hino hmode ⊢
  intro hlaws
  rw [hu.rootDir.2.2] at hnlink
  have hdir := hlaws.dir 0 (htni ▸ Nat.succ_pos _) ((congrArg sIsdir (hmode 0 hu.inode_pos)).trans hu.rootDir.1)
  -- the new directory is the only one that is an entry
  have hone : subdirCount t 0 ≤ 1 := by
    have hsub : ((Finset.range t.nrDentry).filter fun c =>
        isDirectory t c = true ∧ c ∈ t.subdirs (t.parent c) ∧ t.inode (t.parent c) = some 0) ⊆ {s.nrDentry} := by
      intro c hc
      obtain ⟨hlt, hcdir, hlist, -⟩ := Finset.mem_filter.1 hc
      rw [Finset.mem_singleton]
      by_contra hne
      have hcu : c < u.nrDentry := htnr ▸ Finset.mem_range.1 hlt
      obtain ⟨j, hj, hjmode⟩ := isDirectory_iff.1 hcdir
      rw [hino c hne] at hj
      have hju := hu.inode_lt c j hcu hj
      obtain rfl := hu.isDir_root hcu ⟨j, hj, (congrArg sIsdir (hmode j hju)).symm.trans hjmode⟩
      rw [← htroot] at hlist
      exact hwf.not_listed_root hlist
    exact (Finset.card_le_card hsub).trans (Finset.card_singleton _).le
  rw [hnlink] at hdir
  omega

theorem Rooted.sysRename (hs : Rooted s) (oldpath newpath : List Char) : Rooted (sysRename s oldpath newpath).2 := by
  unfold Vfs.sysRename
  rcases kernPath_none_cases s oldpath with ⟨err, t, h⟩ | ⟨oldD, hd, h⟩
  · rw [h]
    exact Grows.rooted (hs.grows_of_kernPath h) hs
  · rw [h]
    dsimp only
    rcases kernPath_parent_cases s newpath with ⟨err, t, h'⟩ | ⟨p, hp, h'⟩
    · rw [h']
      exact Grows.rooted (hs.grows_of_kernPath h') hs
    · rw [h']
      dsimp only
      have hpt := hs.resolve_lt hp
      have hgrows := dAlloc_grows hpt (baseName newpath)
      cases ha : dAlloc s p (baseName newpath) with
      | mk o w =>
        rw [ha] at hgrows
        have hw : Rooted w := Grows.rooted hgrows hs
        cases o with
        | none => exact hw
        | some d =>
          dsimp only
          obtain ⟨-, -, hnew⟩ := hs.dAlloc_then (P := False) hpt ha
          obtain ⟨-, hneg, -⟩ := hnew d rfl
          unfold vfsRename
          split
          · simp only [hneg]
            have hwf := (hw.toWf.unlinked oldD).setName oldD ((listDelInit w oldD).name d)
            have hino : ∀ v, (((listDelInit w oldD).setDentry oldD { (listDelInit w oldD).dentries oldD with
                dName := (listDelInit w oldD).name d })).inode v = w.inode v := fun v =>
              (inode_setName (listDelInit w oldD) oldD v _).trans (inode_listDelInit w oldD v)
            exact hw.congr hwf rfl rfl rfl (fun v _ => hino v) (nameCount_congr rfl fun v _ => hino v) fun v hv hlt => absurd hv hlt
          · exact hw
          · exact hw

theorem Rooted.openDentry (hs : Rooted s) (d flags : Nat) : Rooted (openDentry s d flags).2 := by
  unfold Vfs.openDentry
  split
  · exact hs
  · split
    · exact hs
    · rw [kmallocOk_eq]
      cases answer s.kmalloc with
      | false => exact hs.withMem _
      | true => exact hs.withMem _

theorem Rooted.openCreate (hs : Rooted s) (path : List Char) (flags mode : Nat) : Rooted (openCreate s path flags mode).2 := by
  unfold Vfs.openCreate
  have hkept := hs.createParent path
  cases h : Vfs.createParent s path with
  | mk r t =>
    rw [h] at hkept
    have ht : Rooted t := Grows.rooted hkept.grows hs
    cases r with
    | error err => exact ht
    | ok parent =>
      have hlt : parent < t.nrDentry := hkept.lt _ rfl
      dsimp only
      split
      · exact ht
      · rename_i hpos
        split
        · exact ht
        · have hgrows := dAlloc_grows hlt (baseName path)
          cases ha : dAlloc t parent (baseName path) with
          | mk o u =>
            rw [ha] at hgrows
            have hu : Rooted u := Grows.rooted hgrows ht
            cases o with
            | none => exact hu
            | some d =>
              dsimp only
              obtain ⟨-, -, hnew⟩ := ht.dAlloc_then (P := False) hlt ha
              obtain ⟨hd, hneg, hpar, hino, hnr⟩ := hnew d rfl
              have hc := hu.ramfsCreate (d := d) (by omega) hneg (by rw [hpar, hino]; exact hpos) (mode ||| 0x1A4)
              split
              · rename_i w hw
                rw [hw] at hc
                have hkept' := hc.kernPath path lookupFollow
                split
                · rename_i hk
                  rw [hk] at hkept'
                  exact Grows.rooted hkept'.grows hc
                · rename_i hk
                  rw [hk] at hkept'
                  exact (Grows.rooted hkept'.grows hc).openDentry _ _
              · rename_i hw
                rw [hw] at hc
                exact hc

theorem Rooted.filpOpen (hs : Rooted s) (path : List Char) (flags mode : Nat) : Rooted (filpOpen s path flags mode).2 := by
  unfold Vfs.filpOpen
  split
  · rename_i h
    have ht := Grows.rooted (hs.grows_of_kernPath h) hs
    split
    · exact ht.openCreate path flags mode
    · exact ht
  · rename_i h
    exact (Grows.rooted (hs.grows_of_kernPath h) hs).openDentry _ _

/-! ## Every run -/

/-- **A call that meets the condition keeps the root the only directory.** -/
theorem Rooted.call (hs : Rooted s) {a : Call} (ha : counted a = true) (hok : NlinkOk s a) : Rooted (a.run s) := by
  cases a with
  | mkdir path mode => exact Grows.rooted ((sysMkdir_cases hs.toWf path mode).resolve_right hok) hs
  | rmdir path => exact Grows.rooted ((sysRmdir_cases hs.toWf path).resolve_right hok) hs
  | unlink path => exact Grows.rooted ((sysUnlink_cases hs.toWf path).resolve_right hok) hs
  | link oldpath newpath =>
    rcases sysLink_cases hs.toWf oldpath newpath with hg | ⟨i, hcan⟩
    · exact Grows.rooted hg hs
    · exact (hs.sysLink_made hcan).2.2.1 (hok i hcan)
  | rename oldpath newpath => exact hs.sysRename oldpath newpath
  | openAt path flags mode => exact hs.filpOpen path flags mode
  | stat path =>
    show Rooted (sysStat s path).2
    unfold sysStat
    split
    · rename_i h
      exact Grows.rooted (hs.grows_of_kernPath h) hs
    · rename_i h
      split <;> exact Grows.rooted (hs.grows_of_kernPath h) hs
  | access root path mode =>
    show Rooted (sysAccess s root path mode).2
    unfold sysAccess
    split
    · rename_i h
      exact Grows.rooted (hs.grows_of_kernPath h) hs
    · rename_i h
      split
      · exact Grows.rooted (hs.grows_of_kernPath h) hs
      · split <;> exact Grows.rooted (hs.grows_of_kernPath h) hs
  | mknod path mode dev => cases ha
  | symlink target path => cases ha
  | mount path => cases ha

/-- **A call that does not meet the condition leaves a wrong count.** -/
theorem Rooted.nlinkOk (hs : Rooted s) {a : Call} (hlaws : LinkLaws (a.run s)) : NlinkOk s a := by
  cases a with
  | mkdir path mode => exact fun hcan => hs.not_sysMkdir hcan mode hlaws
  | rmdir path => exact fun hcan => hs.not_sysRmdir hcan hlaws
  | unlink path => exact fun hcan => hs.not_sysUnlink hcan hlaws
  | link oldpath newpath =>
    intro i hcan
    by_contra hno
    exact (hs.sysLink_made hcan).2.2.2 hno hlaws
  | _ => trivial

/-- **The link counts are right throughout a run exactly when nothing is made a directory and nothing is removed.** -/
theorem nlinks_iff (l : List Call) (hs : nlinkMachine.init s) (h : nlinkMachine.run s l = some t) :
    nlinkMachine.Always LinkLaws s l ↔ nlinkMachine.RunOk NlinkOk s l t := by
  obtain ⟨as, rfl⟩ := hs
  have hstep : ∀ {u a v}, nlinkMachine.step u a = some v → counted a = true ∧ a.run u = v := by
    intro u a v hv
    have hif : (if counted a then some (a.run u) else none) = some v := hv
    split at hif
    · rename_i ha
      exact ⟨ha, Option.some.inj hif⟩
    · cases hif
  refine nlinkMachine.always_iff_runOk (I := Rooted) (fun _ hu => hu.laws) (fun u a v hu hv hok => ?_)
    (fun u a v hu hv hlaws => ?_) l _ t (rooted_rootfs as) h
  · obtain ⟨ha, rfl⟩ := hstep hv
    exact hu.call ha hok
  · obtain ⟨-, rfl⟩ := hstep hv
    exact hu.nlinkOk hlaws

/-- A file made and linked. -/
theorem nlinks_iff_link : nlinkMachine.Always LinkLaws (rootfs []) [.openAt ['/', 'f'] oCreat 0, .link ['/', 'f'] ['/', 'g']] := by
  refine (nlinks_iff _ ⟨[], rfl⟩ rfl).2
    ⟨trivial, (filpOpen (rootfs []) ['/', 'f'] oCreat 0).2, rfl, fun i hcan => ?_, _, rfl, rfl⟩
  obtain ⟨d, -, hres, hi, -⟩ := hcan
  have hk : (kernPath (filpOpen (rootfs []) ['/', 'f'] oCreat 0).2 ['/', 'f'] ⟨false, true⟩).1 = .ok 2 := by decide +kernel
  obtain rfl := Except.ok.inj (hk.symm.trans hres.1)
  have hinode : (filpOpen (rootfs []) ['/', 'f'] oCreat 0).2.inode 2 = some 1 := by decide +kernel
  obtain rfl := Option.some.inj (hinode.symm.trans hi)
  show ((filpOpen (rootfs []) ['/', 'f'] oCreat 0).2.inodes 1).iNlink + 1 < 4294967296
  decide +kernel

/-- A directory made in the root, and a file made and removed. -/
theorem not_nlinks : ¬LinkLaws (sysMkdir (rootfs []) ['/', 'd'] 0x1ED).2 ∧
    ¬LinkLaws (sysUnlink (filpOpen (rootfs []) ['/', 'f'] oCreat 0).2 ['/', 'f']).2 := by
  constructor
  · intro h
    have hroot := h.dir 0 (by decide +kernel) (by decide +kernel)
    revert hroot
    decide +kernel
  · intro h
    have hfile := h.file 1 (by decide +kernel) (by decide +kernel)
    revert hfile
    decide +kernel

end Vfs
end Pico
