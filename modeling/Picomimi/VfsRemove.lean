import Picomimi.VfsLookup
/-!
# VfsRemove — what `unlink` and `rmdir` remove

A lookup is answered from the children list of the directory.  The operations of ramfs only drop the link count and leave
the dentry in that list; the generic bodies of `vfs_unlink` and `vfs_rmdir`, for a directory without operations, take it out.
`removes_iff` says when a removal that succeeds removes the name, and nothing else.
-/
namespace Pico
namespace Vfs

open Lib

/-- The two calls that remove a name. -/
inductive Remove where
  | unlink
  | rmdir

def Remove.run (s : Fs) (path : List Char) : Remove → Int × Fs
  | .unlink => sysUnlink s path
  | .rmdir => sysRmdir s path

/-- **A path that ends in an entry**: its last component is the name after the last slash, and the way to the directory does
not go through the entry itself. -/
structure EntryPath (s : Fs) (path : List Char) (dir : Nat) (n : Name) : Prop where
  base : baseName path = n
  proper : Proper n
  comps : components path = components (dirName path) ++ [n]
  parent : resolve s (components (dirName path)) = .ok dir
  direct : (dir, n) ∉ asked (edge s) s.rootDentry (components (dirName path))

/-- **The name of `d`, and only that, is gone** in `t`: the path fails, a create there makes a new empty object, and the paths
that do not ask for the entry of `d` name what they named.  (Memory for what is made then is not short.) -/
structure Removed (s t : Fs) (path : List Char) (d : Nat) : Prop where
  gone : (kernPath (withMem t []) path lookupNone).1 = .error (-enoent)
  create : ∀ dir n, EntryPath s path dir n → ∀ mode dev,
    (sysMknod (withMem t []) path mode dev).1 = 0 ∧
      names (sysMknod (withMem t []) path mode dev).2 (components path) = some s.nrInode ∧
      ((sysMknod (withMem t []) path mode dev).2.inodes s.nrInode).iSize = 0 ∧
      ((sysMknod (withMem t []) path mode dev).2.inodes s.nrInode).iPrivate = .null
  others : ∀ cs, (s.parent d, s.name d) ∉ asked (edge s) s.rootDentry cs → names t cs = names s cs

/-- **What a removal needs of the tree**: the directory has no operations of its own, the dentry is in its list, and no other
one there has the name. -/
structure Removable (s : Fs) (d : Nat) : Prop where
  generic : isRamfsDir s (s.inode (s.parent d)) = false
  linked : d ∈ s.subdirs (s.parent d)
  unique : ∀ c ∈ s.subdirs (s.parent d), s.name c = s.name d → c = d

variable {s t : Fs} {c d e i p v dir : Nat} {m n : Name} {q : Nat × Name} {path : List Char} {cs : List Name}

/-! ## The edges of a tree that lost an entry -/

theorem find?_erase_of_not {α : Type} [DecidableEq α] {f : α → Bool} {a : α} (ha : f a = false) : ∀ l : List α,
    (l.erase a).find? f = l.find? f
  | [] => rfl
  | b :: l => by
    by_cases hba : b = a
    · subst hba
      rw [List.erase_cons_head, List.find?_cons_of_neg (by simp [ha])]
    · rw [List.erase_cons_tail (by simpa using hba)]
      cases hb : f b with
      | true => rw [List.find?_cons_of_pos hb, List.find?_cons_of_pos hb]
      | false =>
        rw [List.find?_cons_of_neg (by simp [hb]), List.find?_cons_of_neg (by simp [hb])]
        exact find?_erase_of_not ha l

theorem dLookup_listDelInit (s : Fs) (d v : Nat) (m : Name) : dLookup (listDelInit s d) v m =
    if v = s.parent d then ((s.subdirs v).erase d).find? (fun c => s.name c = m) else dLookup s v m := by
  have hname : (listDelInit s d).name = s.name := by
    funext c
    exact name_listDelInit s d c
  rw [dLookup, hname, subdirs_listDelInit]
  split <;> rfl

theorem edge_listDelInit_of_ne (h : (v, m) ≠ (s.parent d, s.name d)) : edge (listDelInit s d) v m = edge s v m := by
  have hlookup : dLookup (listDelInit s d) v m = dLookup s v m := by
    rw [dLookup_listDelInit]
    split
    · rename_i hv
      apply find?_erase_of_not
      have hm : ¬s.name d = m := fun hm => h (by rw [hv, hm])
      simpa using hm
    · rfl
  unfold edge
  rw [hlookup, parent_listDelInit]
  rfl

theorem edge_listDelInit_of_not_mem (h : d ∉ s.subdirs (s.parent d)) : edge (listDelInit s d) = edge s := by
  funext v m
  have hlookup : dLookup (listDelInit s d) v m = dLookup s v m := by
    rw [dLookup_listDelInit]
    split
    · rename_i hv
      rw [hv, List.erase_of_not_mem h]
      rfl
    · rfl
  unfold edge
  rw [hlookup, parent_listDelInit]
  rfl

/-- Without another dentry of its name, the entry is gone. -/
theorem Wf.edge_listDelInit_self (hs : Wf s) (hn : Proper (s.name d))
    (hu : ∀ c ∈ s.subdirs (s.parent d), s.name c = s.name d → c = d) :
    edge (listDelInit s d) (s.parent d) (s.name d) = none := by
  rw [edge_of_proper hn, dLookup_listDelInit, if_pos rfl, Option.map_eq_none_iff, List.find?_eq_none]
  intro c hc hname
  have hcd : c = d := hu c (List.mem_of_mem_erase hc) (by simpa using hname)
  rw [hcd] at hc
  exact (hs.nodup _).not_mem_erase hc

/-- With another one, it is still there. -/
theorem edge_listDelInit_ne_none (hn : Proper (s.name d)) (hc : c ∈ s.subdirs (s.parent d)) (hcd : c ≠ d)
    (hname : s.name c = s.name d) : edge (listDelInit s d) (s.parent d) (s.name d) ≠ none := by
  rw [edge_of_proper hn, dLookup_listDelInit, if_pos rfl]
  intro h
  have hnone := List.find?_eq_none.1 (Option.map_eq_none_iff.1 h) c ((List.mem_erase_of_ne hcd).2 hc)
  exact hnone (by simpa using hname)

/-! ## What a path goes through -/

/-- Every step up from `v`. -/
def up (s : Fs) : Nat → Nat → Nat
  | 0, v => v
  | k + 1, v => up s k (s.parent v)

theorem up_of_root (h : s.parent v = v) : ∀ k, up s k v = v
  | 0 => rfl
  | k + 1 => by rw [up, h, up_of_root h k]

/-- **A dentry that no lookup finds, and that is no root, is on no path.** -/
theorem Wf.unreachable (hs : Wf s) (hroot : s.parent d ≠ d) (hno : ∀ v n, Proper n → dLookup s v n ≠ some d)
    (cs : List Name) : resolve s cs ≠ .ok d := by
  have hroots : ∀ v, s.parent v = v → ∀ k, up s k v ≠ d := by
    intro v hv k hk
    rw [up_of_root hv] at hk
    exact hroot (hk ▸ hv)
  have hstep : ∀ v n w, (∀ k, up s k v ≠ d) → edge s v n = some w → ∀ k, up s k w ≠ d := by
    intro v n w hv he
    unfold edge at he
    split at he
    · cases he
      exact hv
    · rename_i h1
      split at he
      · cases he
        split
        · exact hv
        · exact fun k => hv (k + 1)
      · rename_i h2
        obtain ⟨c, hc, rfl⟩ := Option.map_eq_some_iff.1 he
        rcases crossMount_cases s c with heq | ⟨m, hm, -, heq⟩
        · rw [heq]
          intro k
          cases k with
          | zero =>
            intro hcd
            exact hno v n ⟨h1, h2⟩ (by rw [hc]; exact congrArg some hcd)
          | succ k =>
            rw [up, (hs.child v c (dLookup_mem hc).1).1]
            exact hv k
        · rw [heq]
          exact hroots m.2 (hs.mount m hm).2.2
  intro h
  exact walk_invariant (P := fun v => ∀ k, up s k v ≠ d) hstep cs (hroots _ hs.root.2) h 0 rfl

/-- A linked dentry that a path leads to has a name that is looked up. -/
theorem Wf.proper_of_resolve (hs : Wf s) (hl : d ∈ s.subdirs (s.parent d)) (h : resolve s cs = .ok d) :
    Proper (s.name d) := by
  by_contra hn
  refine hs.unreachable (hs.child _ d hl).2.1.symm (fun v m hm hlook => ?_) cs h
  exact hn ((dLookup_mem hlook).2 ▸ hm)

/-- **Every path to a linked dentry asks for its entry.** -/
theorem Wf.asked_of_resolve (hs : Wf s) (hl : d ∈ s.subdirs (s.parent d)) (h : resolve s cs = .ok d) :
    (s.parent d, s.name d) ∈ asked (edge s) s.rootDentry cs := by
  by_contra hask
  have hsame : resolve (listDelInit s d) cs = .ok d := by
    refine (walk_congr cs fun q hq => ?_).trans h
    exact edge_listDelInit_of_ne fun hqe => hask (hqe ▸ hq)
  have hroot : (listDelInit s d).parent d ≠ d := by
    rw [parent_listDelInit]
    exact (hs.child _ d hl).2.1.symm
  refine (hs.unlinked d).unreachable hroot (fun v m _ hlook => ?_) cs hsame
  have hmem := (dLookup_mem hlook).1
  have hpar := ((hs.unlinked d).child v d hmem).1
  rw [parent_listDelInit] at hpar
  rw [subdirs_listDelInit, if_pos hpar.symm] at hmem
  exact (hs.nodup v).not_mem_erase hmem

/-! ## The calls -/

theorem kernPath_none_ok (h : resolve s (components path) = .ok d) : kernPath s path lookupNone = (.ok d, s) := by
  rw [lookupNone, kernPath_eq]
  have h' : resolve s (walked false (components path)) = .ok d := h
  simp only [h']

theorem kernPath_none_error (h : resolve s (components path) = .error q) : kernPath s path lookupNone = missed s q := by
  rw [lookupNone, kernPath_eq]
  have h' : resolve s (walked false (components path)) = .error q := h
  simp only [h']

/-- **What a removal that succeeds has done**: link counts in a ramfs directory, the entry and a link count elsewhere. -/
theorem Remove.run_cases (r : Remove) (hd : resolve s (components path) = .ok d) (h : (r.run s path).1 = 0) :
    (isRamfsDir s (s.inode (s.parent d)) = true ∧ ∃ inodes, (r.run s path).2 = { s with inodes := inodes }) ∨
      (isRamfsDir s (s.inode (s.parent d)) = false ∧ s.inode (s.parent d) ≠ none ∧
        ∃ i, (r.run s path).2 = dropNlink (listDelInit s d) i) := by
  cases r with
  | unlink =>
    simp only [Remove.run, sysUnlink, kernPath_none_ok hd, vfsUnlink] at h ⊢
    cases hdir : s.inode (s.parent d) with
    | none =>
      rw [hdir] at h
      exact absurd h (by decide : -einval ≠ 0)
    | some dir =>
      cases hi : s.inode d with
      | none =>
        rw [hdir, hi] at h
        exact absurd h (by decide : -enoent ≠ 0)
      | some i =>
        simp only [hdir, hi] at h ⊢
        by_cases hisdir : sIsdir (s.inodes i).iMode = true
        · rw [if_pos hisdir] at h
          exact absurd h (by decide : -eisdir ≠ 0)
        · rw [if_neg hisdir] at h ⊢
          cases hram : isRamfsDir s (some dir) with
          | true => exact .inl ⟨rfl, _, rfl⟩
          | false => exact .inr ⟨rfl, Option.some_ne_none dir, i, rfl⟩
  | rmdir =>
    simp only [Remove.run, sysRmdir, kernPath_none_ok hd, vfsRmdir] at h ⊢
    cases hi : s.inode d with
    | none =>
      rw [hi, if_pos rfl] at h
      exact absurd h (by decide : -enoent ≠ 0)
    | some i =>
      simp only [hi, reduceCtorEq, if_false] at h ⊢
      cases hdir : s.inode (s.parent d) with
      | none =>
        rw [hdir] at h
        exact absurd h (by decide : -einval ≠ 0)
      | some dir =>
        simp only [hdir] at h ⊢
        by_cases hisdir : ¬sIsdir (s.inodes i).iMode = true
        · rw [if_pos hisdir] at h
          exact absurd h (by decide : -enotdir ≠ 0)
        · rw [if_neg hisdir] at h ⊢
          by_cases hempty : s.subdirs d ≠ []
          · rw [if_pos hempty] at h
            exact absurd h (by decide : -enotempty ≠ 0)
          · rw [if_neg hempty] at h ⊢
            cases hram : isRamfsDir s (some dir) with
            | true =>
              refine .inl ⟨rfl, ?_⟩
              rw [if_pos rfl, ramfsRmdir, if_neg hempty]
              exact ⟨_, rfl⟩
            | false => exact .inr ⟨rfl, Option.some_ne_none dir, i, rfl⟩

/-- A directory with a child is not removed, and nothing changes. -/
theorem sysRmdir_of_child (hs : Wf s) (hd : resolve s (components path) = .ok d) (hi : s.inode d = some i)
    (hdir : sIsdir (s.inodes i).iMode = true) (hc : c ∈ s.subdirs d) : sysRmdir s path = (-enotempty, s) := by
  have hp : s.inode (s.parent d) ≠ none := by
    apply hs.positive d (hs.resolve_lt hd)
    simp [hi]
  obtain ⟨j, hj⟩ := Option.ne_none_iff_exists'.1 hp
  have hne : s.subdirs d ≠ [] := List.ne_nil_of_mem hc
  simp only [sysRmdir, kernPath_none_ok hd, vfsRmdir, hi, hj, hdir]
  simp [hne]

/-! ## The entry -/

/-- The entry a path ends in is the dentry's own, unless the dentry is the root of a mount. -/
theorem EntryPath.eq_of_linked (hp : EntryPath s path dir n) (hs : Wf s) (hd : resolve s (components path) = .ok d)
    (hl : d ∈ s.subdirs (s.parent d)) : dir = s.parent d ∧ n = s.name d := by
  cases hedge : edge s dir n with
  | none =>
    have hres : resolve s (components path) = .error (dir, n) := by
      rw [hp.comps]
      exact walk_snoc_none hp.parent hedge
    rw [hres] at hd
    cases hd
  | some e =>
    have hres : resolve s (components path) = .ok e := by
      rw [hp.comps]
      exact walk_snoc_some hp.parent hedge
    have hed : e = d := by
      rw [hres] at hd
      injection hd
    subst hed
    rw [edge_of_proper hp.proper] at hedge
    obtain ⟨c, hc, hcross⟩ := Option.map_eq_some_iff.1 hedge
    rcases crossMount_cases s c with heq | ⟨m, hm, -, heq⟩
    · have hce : c = e := heq.symm.trans hcross
      subst hce
      obtain ⟨hmem, hname⟩ := dLookup_mem hc
      exact ⟨(hs.child dir c hmem).1.symm, hname.symm⟩
    · have hme : m.2 = e := heq.symm.trans hcross
      have hself := (hs.mount m hm).2.2
      rw [hme] at hself
      exact absurd hself.symm (hs.child _ e hl).2.1

/-- With the entry taken out, the paths that ask for it stop there, and the others go on as before. -/
theorem Removable.resolve_eq (h : Removable s d) (hs : Wf s) (hn : Proper (s.name d)) (cs : List Name) :
    resolve (listDelInit s d) cs = if (s.parent d, s.name d) ∈ asked (edge s) s.rootDentry cs
      then .error (s.parent d, s.name d) else resolve s cs := by
  split
  · rename_i hask
    exact walk_cut (q := (s.parent d, s.name d)) (hs.edge_listDelInit_self hn h.unique)
      (fun r hr => edge_listDelInit_of_ne hr) cs hask
  · rename_i hask
    exact walk_congr cs fun q hq => edge_listDelInit_of_ne fun hqe => hask (hqe ▸ hq)

theorem Removable.gone (h : Removable s d) (hs : Wf s) (hd : resolve s (components path) = .ok d) :
    (kernPath (withMem (dropNlink (listDelInit s d) i) []) path lookupNone).1 = .error (-enoent) := by
  have hres : resolve (withMem (dropNlink (listDelInit s d) i) []) (components path) = .error (s.parent d, s.name d) := by
    refine (h.resolve_eq hs (hs.proper_of_resolve h.linked hd) _).trans ?_
    rw [if_pos (hs.asked_of_resolve h.linked hd)]
  rw [kernPath_none_error hres, missed]
  have hroom : roomFor (withMem (dropNlink (listDelInit s d) i) []).kmalloc (s.name d) = true := by
    simp [withMem, roomFor, answer]
  simp only [hroom, if_true]

theorem Removable.names_others (h : Removable s d) (hs : Wf s) (hn : Proper (s.name d))
    (hask : (s.parent d, s.name d) ∉ asked (edge s) s.rootDentry cs) :
    names (dropNlink (listDelInit s d) i) cs = names s cs := by
  have hres : resolve (dropNlink (listDelInit s d) i) cs = resolve s cs := by
    refine (h.resolve_eq hs hn cs).trans ?_
    rw [if_neg hask]
  rw [names, names, hres]
  cases resolve s cs with
  | ok e => exact inode_listDelInit s d e
  | error q => rfl

/-- `mknod` where nothing is, in a directory without operations of its own. -/
theorem sysMknod_new (hs : Wf s) (hmem : s.kmalloc = []) (hbase : baseName path = n) (hn : Proper n)
    (hcomps : components path = components (dirName path) ++ [n])
    (hpre : resolve s (components (dirName path)) = .ok dir) (hedge : edge s dir n = none)
    (hask : (dir, n) ∉ asked (edge s) s.rootDentry (components (dirName path))) (hpos : s.inode dir ≠ none)
    (hram : isRamfsDir s (s.inode dir) = false) (mode dev : Nat) :
    (sysMknod s path mode dev).1 = 0 ∧ names (sysMknod s path mode dev).2 (components path) = some s.nrInode ∧
      ((sysMknod s path mode dev).2.inodes s.nrInode).iSize = 0 ∧
      ((sysMknod s path mode dev).2.inodes s.nrInode).iPrivate = .null := by
  have hlt : dir < s.nrDentry := hs.resolve_lt hpre
  have hk : kernPath s path lookupParent = (.ok dir, s) := by
    rw [lookupParent, kernPath_eq, hcomps, walked, if_pos rfl, List.dropLast_concat, hpre]
  have hroom : roomFor s.kmalloc n = true := by simp [hmem, roomFor, answer]
  have hleft : leftFor s.kmalloc n = [] := by simp [hmem, leftFor]
  have hans : answer (addDentry (withMem s []) dir n).kmalloc = true := rfl
  obtain ⟨j, hj⟩ := Option.ne_none_iff_exists'.1 hpos
  have hdir : (addDentry (withMem s []) dir n).inode dir = some j := by
    rw [inode_addDentry (s := withMem s []) hlt]
    exact (if_neg (Nat.ne_of_lt hlt)).trans hj
  have hram' : isRamfsDir (addDentry (withMem s []) dir n) (some j) = false := by
    rw [← hj]
    exact hram
  have hcall : sysMknod s path mode dev = vfsMknod (addDentry (withMem s []) dir n) (some j) s.nrDentry mode dev := by
    simp only [sysMknod, withNewDentry, hk, hbase, (proper_of_edge_none hedge).2, dAlloc_eq, hroom, hleft, if_true, hdir]
  rw [hcall]
  simp only [vfsMknod, hram', newInode_eq, hans, if_true]
  refine ⟨rfl, ?_, ?_, ?_⟩
  · have hres : resolve (addDentry (withMem s []) dir n) (components path) = .ok s.nrDentry := by
      rw [hcomps]
      refine walk_snoc_some ?_ ((hs.mem []).edge_addDentry_new hlt hn)
      exact ((hs.mem []).resolve_addDentry hlt hask).trans hpre
    refine (names_of_ok (d := s.nrDentry) ?_).trans ?_
    · rw [resolve]
      simp only [Bool.false_eq_true, if_false]
      rw [edge_dInstantiate]
      exact hres
    · simp only [Bool.false_eq_true, if_false]
      rw [inode_dInstantiate, if_pos rfl]
      rfl
  · simp [dInstantiate, Fs.setDentry, Fs.setInode, addDentry, withMem]
  · simp [dInstantiate, Fs.setDentry, Fs.setInode, addDentry, withMem]

@[simp] theorem isRamfsDir_dropNlink (s : Fs) (i : Nat) (o : Option Nat) :
    isRamfsDir (dropNlink s i) o = isRamfsDir s o := by
  cases o with
  | none => rfl
  | some j =>
    by_cases hj : j = i
    · simp [isRamfsDir, dropNlink, Fs.setInode, hj]
    · simp [isRamfsDir, dropNlink, Fs.setInode, Function.update_of_ne hj]

/-- **A removal from a removable place removes the name.** -/
theorem Removable.removed (h : Removable s d) (hs : Wf s) (hd : resolve s (components path) = .ok d)
    (hpos : s.inode (s.parent d) ≠ none) (i : Nat) : Removed s (dropNlink (listDelInit s d) i) path d := by
  have hn : Proper (s.name d) := hs.proper_of_resolve h.linked hd
  refine ⟨h.gone hs hd, fun dir n hp mode dev => ?_, fun cs hask => h.names_others hs hn hask⟩
  obtain ⟨hdir, hname⟩ := hp.eq_of_linked hs hd h.linked
  subst hdir
  subst hname
  have hwf : Wf (withMem (dropNlink (listDelInit s d) i) []) := ((hs.unlinked d).dropNlink i).mem []
  have hasked : asked (edge (listDelInit s d)) s.rootDentry (components (dirName path)) =
      asked (edge s) s.rootDentry (components (dirName path)) :=
    asked_congr _ fun q hq => edge_listDelInit_of_ne fun hqe => hp.direct (hqe ▸ hq)
  refine sysMknod_new hwf rfl hp.base hn hp.comps ?_ (hs.edge_listDelInit_self hn h.unique) ?_ ?_ ?_
    mode dev
  · refine (h.resolve_eq hs hn _).trans ?_
    rw [if_neg hp.direct]
    exact hp.parent
  · exact fun hq => hp.direct (hasked ▸ hq)
  · show (listDelInit s d).inode (s.parent d) ≠ none
    rw [inode_listDelInit]
    exact hpos
  · show isRamfsDir (dropNlink (listDelInit s d) i) ((listDelInit s d).inode (s.parent d)) = false
    rw [inode_listDelInit, isRamfsDir_dropNlink]
    exact h.generic

/-- While the path still leads somewhere, nothing is removed. -/
theorem not_removed_of_ok (h : resolve t (components path) = .ok e) : ¬Removed s t path d := by
  intro hr
  have hg := hr.gone
  have hres : resolve (withMem t []) (components path) = .ok e := h
  rw [kernPath_none_ok hres] at hg
  cases hg

/-- **Where a removal removes the name, the place is removable.** -/
theorem EntryPath.removable (hp : EntryPath s path dir n) (hs : Wf s) (hd : resolve s (components path) = .ok d)
    (hram : isRamfsDir s (s.inode (s.parent d)) = false) (h : Removed s (dropNlink (listDelInit s d) i) path d) :
    Removable s d := by
  have hl : d ∈ s.subdirs (s.parent d) := by
    by_contra hl
    apply not_removed_of_ok (e := d) _ h
    show walk (edge (listDelInit s d)) s.rootDentry _ = _
    rw [edge_listDelInit_of_not_mem hl]
    exact hd
  refine ⟨hram, hl, fun c hc hname => ?_⟩
  by_contra hcd
  obtain ⟨rfl, rfl⟩ := hp.eq_of_linked hs hd hl
  have hpre : resolve (dropNlink (listDelInit s d) i) (components (dirName path)) = .ok (s.parent d) :=
    (walk_congr _ fun q hq => edge_listDelInit_of_ne fun hqe => hp.direct (hqe ▸ hq)).trans hp.parent
  obtain ⟨e, he⟩ := Option.ne_none_iff_exists'.1 (edge_listDelInit_ne_none hp.proper hc hcd hname)
  apply not_removed_of_ok (e := e) _ h
  rw [hp.comps]
  exact walk_snoc_some hpre he

/-- **When `unlink` and `rmdir` remove the name**: from a directory without operations of its own, a dentry that is in its
list and is the only one there with its name.  A directory with a live child stays as it is. -/
theorem removes_iff (hs : Wf s) (hd : resolve s (components path) = .ok d) :
    (∀ r : Remove, (r.run s path).1 = 0 → (Removable s d → Removed s (r.run s path).2 path d) ∧
      ∀ dir n, EntryPath s path dir n → (Removed s (r.run s path).2 path d ↔ Removable s d)) ∧
    ∀ i c, s.inode d = some i → sIsdir (s.inodes i).iMode = true → c ∈ s.subdirs d → s.inode c ≠ none →
      sysRmdir s path = (-enotempty, s) := by
  refine ⟨fun r h => ?_, fun i c hi hdir hc _ => sysRmdir_of_child hs hd hi hdir hc⟩
  rcases r.run_cases hd h with ⟨hram, inodes, ht⟩ | ⟨hram, hpos, i, ht⟩
  · have hnot : ¬Removable s d := fun hr => by simp [hr.generic] at hram
    have hnot' : ¬Removed s (r.run s path).2 path d := by
      rw [ht]
      exact not_removed_of_ok (t := { s with inodes := inodes }) hd
    exact ⟨fun hr => absurd hr hnot, fun dir n _ => ⟨fun hr => absurd hr hnot', fun hr => absurd hr hnot⟩⟩
  · rw [ht]
    have hsuff : Removable s d → Removed s (dropNlink (listDelInit s d) i) path d := fun hr => hr.removed hs hd hpos i
    exact ⟨hsuff, fun dir n hp => ⟨fun hr => hp.removable hs hd hram hr, hsuff⟩⟩

/-- A file in a directory that `mknod` made, which has no operations. -/
def nodeInNode : Fs := (Call.mknod ['/', 'd', '/', 'f'] 0x81A4 0).run ((Call.mknod ['/', 'd'] 0x41ED 0).run (rootfs []))

theorem wf_nodeInNode : Wf nodeInNode := ((wf_rootfs []).call _).call _

theorem removes_iff_node : Removed nodeInNode (sysUnlink nodeInNode ['/', 'd', '/', 'f']).2 ['/', 'd', '/', 'f'] 2 :=
  ((removes_iff (d := 2) wf_nodeInNode (by rfl)).1 .unlink (by decide)).1 ⟨by decide, by decide, by decide⟩

/-- A file in the root. -/
def fileInRoot : Fs := (sysMknod (rootfs []) ['/', 'a'] 0x81A4 0).2

/-- `unlink("/a")` succeeds, and `/a` is still there. -/
theorem not_removed_fileInRoot : Wf fileInRoot ∧ resolve fileInRoot (components ['/', 'a']) = .ok 1 ∧
    (sysUnlink fileInRoot ['/', 'a']).1 = 0 ∧ ¬Removed fileInRoot (sysUnlink fileInRoot ['/', 'a']).2 ['/', 'a'] 1 :=
  ⟨(wf_rootfs []).call (.mknod ['/', 'a'] 0x81A4 0), by rfl, by decide, not_removed_of_ok (e := 1) (by rfl)⟩

end Vfs
end Pico
