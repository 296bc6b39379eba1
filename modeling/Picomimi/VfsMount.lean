import Picomimi.VfsDots
/-!
# VfsMount — what a mount shows

`do_mount` adds an entry to the end of the mount table, if there is room, and `kern_path` crosses to the first entry of a dentry
it has just looked up.  So a mount shows where the last look-up of the path finds the mountpoint itself, with nothing mounted
on it before: not on the root, not on a directory already mounted on, and not through a link (`mount_iff`).
-/
namespace Pico
namespace Vfs

open Lib

/-- Is there memory for the superblock, the inode and the dentry of the root, and the mount? -/
def roomForMount (as : List Bool) : Bool := answer as && (answer as.tail && (answer as.tail.tail && answer as.tail.tail.tail))

/-- The path's components look the dentry `x` up. -/
def Passes (s : Fs) (x : Nat) (cs : List Name) : Prop :=
  ∃ q ∈ asked (edge s) s.rootDentry cs, Proper q.2 ∧ dLookup s q.1 q.2 = some x

/-- **The mount is visible**: the path leads to the new root, the paths below it lead on from there, and those that do not
pass the mountpoint lead where they did. -/
structure Visible (s t : Fs) (dir : List Char) (x : Nat) : Prop where
  here : ∀ f, Resolves t f dir s.nrDentry
  below : ∀ q, resolve t (components (dir ++ '/' :: q)) = walk (edge t) s.nrDentry (components q)
  outside : ∀ p f d, ¬Passes s x (components p) → (Resolves t f p d ↔ Resolves s f p d)

/-- **What `do_mount` promises** for the path of the directory `x`. -/
structure MountLaws (s : Fs) (dir : List Char) (x : Nat) : Prop where
  done : (doMount s dir).1 = 0 → Visible s (doMount s dir).2 dir x
  failed : (doMount s dir).1 ≠ 0 → ∀ p f d, Resolves (doMount s dir).2 f p d ↔ Resolves s f p d

/-- **A mount that shows**: the table has room, nothing is mounted on `x`, and the path's last look-up, the first that finds
`x`, is followed by dots alone. -/
structure Shows (s : Fs) (dir : List Char) (x : Nat) : Prop where
  room : s.mountTable.length + 1 < maxMounts
  unmounted : ∀ m ∈ s.mountTable, m.1 ≠ x
  last : ∃ pre n dots v, components dir = pre ++ n :: dots ∧ Proper n ∧ (∀ m ∈ dots, ¬Proper m) ∧ resolve s pre = .ok v ∧
    dLookup s v n = some x ∧ ¬Passes s x pre

variable {s t : Fs} {c d e i k v x : Nat} {m n : Name} {f : Bool} {dir p : List Char} {cs : List Name}

/-! ## What stays -/

/-- **The old dentries and inodes are as they were.** -/
structure Extends (s t : Fs) : Prop where
  le : s.nrDentry ≤ t.nrDentry
  root : t.rootDentry = s.rootDentry
  dentries : ∀ v, v < s.nrDentry → t.dentries v = s.dentries v
  inodes : ∀ i, i < s.nrInode → t.inodes i = s.inodes i

section Extends

variable (hs : Tree s) (h : Extends s t)
include hs h

theorem Extends.dLookup_eq (hv : v < s.nrDentry) (n : Name) : dLookup t v n = dLookup s v n := by
  have hsub : t.subdirs v = s.subdirs v := congrArg Dentry.dSubdirs (h.dentries v hv)
  unfold dLookup
  rw [hsub]
  refine List.find?_congr fun c hc => ?_
  have hname : t.name c = s.name c := congrArg Dentry.dName (h.dentries c (hs.child v c hc).2.2)
  rw [hname]

omit hs in
theorem Extends.inode_eq (hv : v < s.nrDentry) : t.inode v = s.inode v := congrArg Dentry.dInode (h.dentries v hv)

theorem Extends.inodes_eq (hv : v < s.nrDentry) (hi : s.inode v = some i) : t.inodes i = s.inodes i :=
  h.inodes i (hs.inode_lt v i hv hi)

theorem Extends.isSymlink_eq (hv : v < s.nrDentry) : isSymlink t v = isSymlink s v := by
  unfold isSymlink
  rw [h.inode_eq hv]
  cases hi : s.inode v with
  | none => rfl
  | some i => rw [Option.any_some, Option.any_some, h.inodes_eq hs hv hi]

theorem Extends.linkTarget_eq (hv : v < s.nrDentry) : linkTarget t v = linkTarget s v := by
  unfold linkTarget
  rw [h.inode_eq hv]
  cases hi : s.inode v with
  | none => rfl
  | some i => rw [Option.map_some, Option.map_some, h.inodes_eq hs hv hi]

theorem Extends.walk_dLookup (cs : List Name) : walk (dLookup t) s.rootDentry cs = walk (dLookup s) s.rootDentry cs :=
  walk_congr cs fun q hq => h.dLookup_eq hs (asked_invariant (P := fun d => d < s.nrDentry)
    (fun _ _ _ _ hl => hs.dLookup_lt hl) cs hs.root.1 q hq) q.2

theorem Extends.linkEnd_eq : ∀ (k : Nat) {e : Nat}, e < s.nrDentry → linkEnd t k e = linkEnd s k e
  | 0, e, he => by
    unfold linkEnd
    rw [h.isSymlink_eq hs he]
  | k + 1, e, he => by
    by_cases hl : isSymlink s e = true
    · rw [linkEnd_succ hl, linkEnd_succ ((h.isSymlink_eq hs he).trans hl), h.linkTarget_eq hs he]
      cases linkTarget s e with
      | none => rfl
      | some target =>
        dsimp only
        rw [h.root, h.walk_dLookup hs]
        cases hw : walk (dLookup s) s.rootDentry (targetComponents target) with
        | error q => rfl
        | ok e' =>
          have hlt : e' < s.nrDentry := walk_invariant (P := fun d => d < s.nrDentry) (fun _ _ _ _ hl => hs.dLookup_lt hl) _
            hs.root.1 hw
          exact Extends.linkEnd_eq k hlt
    · have hl' := Bool.eq_false_iff.2 hl
      rw [linkEnd_of_not hl', linkEnd_of_not ((h.isSymlink_eq hs he).trans hl')]

theorem Extends.reach_eq (he : e < s.nrDentry) : reach t f e = reach s f e := by
  unfold reach
  rw [h.linkEnd_eq hs 8 he]

omit h in
theorem reach_lt (he : e < s.nrDentry) (hr : reach s f e = some d) : d < s.nrDentry := by
  unfold reach at hr
  split at hr
  · rcases linkEnd_cases hr with rfl | rfl | ⟨v, hv⟩
    · exact he
    · exact hs.root.1
    · exact (hs.child v d hv).2.2
  · cases hr
    exact he

/-- A path whose walk is the same resolves to the same. -/
theorem Extends.resolves_eq (ht : Wf t) (hr : resolve t (components p) = resolve s (components p)) :
    Resolves t f p d ↔ Resolves s f p d := by
  rw [resolves_iff ht, resolves_iff hs.toWf, hr]
  refine exists_congr fun e => and_congr_right fun he => ?_
  have hlt := hs.resolve_lt he
  rw [h.reach_eq hs hlt]
  refine and_congr_right fun hd => ?_
  rw [h.inode_eq (reach_lt hs hlt hd)]

theorem Extends.edge_eq (hv : v < s.nrDentry) (hcross : ∀ c, dLookup s v n = some c → crossMount t c = crossMount s c) :
    edge t v n = edge s v n := by
  have hpar : t.parent v = s.parent v := congrArg Dentry.dParent (h.dentries v hv)
  unfold edge
  rw [h.dLookup_eq hs hv, hpar, h.root]
  cases hc : dLookup s v n with
  | none => rfl
  | some c =>
    show (if _ then _ else if _ then _ else some (crossMount t c)) = if _ then _ else if _ then _ else some (crossMount s c)
    rw [hcross c hc]

/-- **With the same crossings, every path leads where it did.** -/
theorem Extends.resolves_of_cross (ht : Wf t) (hm : ∀ c, crossMount t c = crossMount s c) (p : List Char) (f : Bool) (d : Nat) :
    Resolves t f p d ↔ Resolves s f p d := by
  refine h.resolves_eq hs ht ?_
  unfold resolve
  rw [h.root]
  exact walk_congr _ fun q hq => h.edge_eq hs (hs.asked_lt _ q hq) fun c _ => hm c

end Extends

/-! ## The state a mount leaves -/

/-- **A mount made**: there is a new root, and an entry for it if the table has room. -/
structure Mounted (s t : Fs) (x : Nat) : Prop extends Extends s t where
  table : t.mountTable = if s.mountTable.length + 1 < maxMounts then s.mountTable ++ [(x, s.nrDentry)] else s.mountTable
  made : s.nrDentry < t.nrDentry
  newRoot : ∃ i, t.dentries s.nrDentry = ⟨['/'], s.nrDentry, some i, []⟩ ∧ sIsdir (t.inodes i).iMode = true

/-- **A mount that found no memory**: what there was is as it was. -/
structure Unmounted (s t : Fs) : Prop extends Extends s t where
  table : t.mountTable = s.mountTable

/-- The three answers `ramfs_mount` asks for. -/
theorem ramfsMount_extends (s : Fs) : ∃ r u, ramfsMount s = (r, u) ∧ Extends s u ∧ u.mountTable = s.mountTable ∧
    if answer s.kmalloc && (answer s.kmalloc.tail && answer s.kmalloc.tail.tail) then
      r = some s.nrDentry ∧ u.kmalloc = s.kmalloc.tail.tail.tail ∧ s.nrDentry < u.nrDentry ∧
      ∃ i, u.dentries s.nrDentry = ⟨['/'], s.nrDentry, some i, []⟩ ∧ sIsdir (u.inodes i).iMode = true
    else r = none := by
  have hsame : ∀ as, Extends s (withMem s as) := fun as => ⟨Nat.le_refl _, rfl, fun _ _ => rfl, fun _ _ => rfl⟩
  unfold ramfsMount
  rw [kmallocOk_eq]
  cases answer s.kmalloc with
  | false => exact ⟨none, _, rfl, hsame _, rfl, rfl⟩
  | true =>
    simp only [newInode_eq]
    have htail : answer (withMem s s.kmalloc.tail).kmalloc = answer s.kmalloc.tail := rfl
    rw [htail]
    cases answer s.kmalloc.tail with
    | false => exact ⟨none, _, rfl, ⟨Nat.le_refl _, rfl, fun _ _ => rfl, fun _ _ => rfl⟩, rfl, rfl⟩
    | true =>
      simp only [if_true, kmallocOk_eq]
      have hinodes : ∀ (a b : Inode) (j : Nat), j < s.nrInode →
          Function.update (Function.update s.inodes s.nrInode a) s.nrInode b j = s.inodes j := by
        intro a b j hj
        rw [Function.update_of_ne (Nat.ne_of_lt hj), Function.update_of_ne (Nat.ne_of_lt hj)]
      have htail2 : ∀ u : Fs, u.kmalloc = s.kmalloc.tail.tail → answer u.kmalloc = answer s.kmalloc.tail.tail :=
        fun u hu => congrArg answer hu
      rw [htail2 _ rfl]
      cases answer s.kmalloc.tail.tail with
      | false =>
        exact ⟨none, _, rfl, ⟨Nat.le_refl _, rfl, fun _ _ => rfl, hinodes _ _⟩, rfl, rfl⟩
      | true =>
        refine ⟨_, _, rfl, ⟨Nat.le_succ _, rfl, fun v hv => ?_, hinodes _ _⟩, rfl, rfl, rfl, Nat.lt_succ_self _,
          s.nrInode, ?_, ?_⟩
        · exact Function.update_of_ne (Nat.ne_of_lt hv) _ _
        · exact Function.update_self _ _ _
        · show sIsdir (Inode.iMode (Function.update (fun j => Function.update s.inodes s.nrInode blankInode j) s.nrInode
            ⟨sIfdir ||| 0x1ED, 1, 2, 0, 0, .ramfsDir, .ramfsDir, .null⟩ s.nrInode)) = true
          rw [Function.update_self]
          rfl

theorem roomForMount_eq (as : List Bool) :
    roomForMount as = ((answer as && (answer as.tail && answer as.tail.tail)) && answer as.tail.tail.tail) := by
  simp only [roomForMount, Bool.and_assoc]

/-- **What `do_mount` does** with the path of `x`. -/
theorem doMount_cases (hs : Tree s) (hx : Resolves s true dir x) :
    (roomForMount s.kmalloc = true ∧ (doMount s dir).1 = 0 ∧ Mounted s (doMount s dir).2 x) ∨
      (roomForMount s.kmalloc = false ∧ (doMount s dir).1 ≠ 0 ∧ Unmounted s (doMount s dir).2) := by
  obtain ⟨r, u, hru, hsu, htable, hroom⟩ := ramfsMount_extends s
  rw [roomForMount_eq]
  unfold doMount
  rw [show kernPath s dir lookupFollow = (.ok x, s) from kernPath_of_resolves hs.toWf hx]
  simp only [hru]
  revert hroom
  cases answer s.kmalloc && (answer s.kmalloc.tail && answer s.kmalloc.tail.tail) with
  | false =>
    rintro rfl
    exact .inr ⟨rfl, (by decide : (-enomem : Int) ≠ 0), hsu, htable⟩
  | true =>
    rintro ⟨rfl, hmem, hmade, hnew⟩
    simp only [kmallocOk_eq, hmem, Bool.true_and]
    have hsu' : Extends s (withMem u s.kmalloc.tail.tail.tail.tail) := ⟨hsu.le, hsu.root, hsu.dentries, hsu.inodes⟩
    cases answer s.kmalloc.tail.tail.tail with
    | false => exact .inr ⟨rfl, (by decide : (-enomem : Int) ≠ 0), hsu', htable⟩
    | true =>
      refine .inl ⟨rfl, rfl, ?_⟩
      have htable' : (withMem u s.kmalloc.tail.tail.tail.tail).mountTable = s.mountTable := htable
      by_cases hlen : s.mountTable.length + 1 < maxMounts
      · simp only [htable', if_pos hlen]
        exact ⟨⟨hsu.le, hsu.root, hsu.dentries, hsu.inodes⟩, (if_pos hlen).symm, hmade, hnew⟩
      · simp only [htable', if_neg hlen]
        exact ⟨hsu', htable.trans (if_neg hlen).symm, hmade, hnew⟩

section Mounted

variable (hs : Tree s) (h : Mounted s t x)
include hs h

omit hs in
/-- Where `kern_path` crosses after the mount. -/
theorem Mounted.crossMount_eq (c : Nat) : crossMount t c =
    if s.mountTable.length + 1 < maxMounts ∧ c = x ∧ ∀ m ∈ s.mountTable, m.1 ≠ x then s.nrDentry else crossMount s c := by
  unfold crossMount
  rw [h.table]
  by_cases hlen : s.mountTable.length + 1 < maxMounts
  · rw [if_pos hlen, List.find?_append]
    cases hf : s.mountTable.find? fun m => m.1 = c with
    | some m =>
      have hm : m.1 = c := by simpa using List.find?_some hf
      rw [if_neg]
      · rfl
      · rintro ⟨-, rfl, hfree⟩
        exact hfree m (List.mem_of_find?_eq_some hf) hm
    | none =>
      have hfree : ∀ m ∈ s.mountTable, m.1 ≠ c := fun m hm hc => by
        have hfind := List.find?_eq_none.1 hf m hm
        exact hfind (decide_eq_true hc)
      by_cases hc : c = x
      · subst hc
        rw [if_pos ⟨hlen, rfl, hfree⟩]
        simp
      · rw [if_neg fun hall => hc hall.2.1]
        simp [Ne.symm hc]
  · rw [if_neg hlen, if_neg fun hall => hlen hall.1]

omit hs in
theorem Mounted.root_subdirs : t.subdirs s.nrDentry = [] := by
  obtain ⟨i, hd, -⟩ := h.newRoot
  exact congrArg Dentry.dSubdirs hd

omit hs in
theorem Mounted.isDir_root : IsDir t s.nrDentry := by
  obtain ⟨i, hd, hdir⟩ := h.newRoot
  exact ⟨i, congrArg Dentry.dInode hd, hdir⟩

omit hs in
/-- **A walk from the new root** stays there for as long as it meets dots. -/
theorem Mounted.walk_root : ∀ cs : List Name, walk (edge t) s.nrDentry cs = .ok e ↔ e = s.nrDentry ∧ ∀ m ∈ cs, ¬Proper m
  | [] => ⟨fun h => ⟨(Except.ok.inj h).symm, nofun⟩, fun h => congrArg Except.ok h.1.symm⟩
  | n :: cs => by
    by_cases hn : Proper n
    · have hnone : edge t s.nrDentry n = none := by
        rw [edge_of_proper hn, dLookup, h.root_subdirs]
        rfl
      rw [walk_cons_none hnone]
      exact ⟨fun hc => (by cases hc), fun hc => absurd hn (hc.2 n List.mem_cons_self)⟩
    · have hself : edge t s.nrDentry n = some s.nrDentry := by
        have hpar : t.parent s.nrDentry = s.nrDentry := by
          obtain ⟨i, hd, -⟩ := h.newRoot
          exact congrArg Dentry.dParent hd
        unfold edge
        rw [hpar]
        by_cases h1 : n = ['.']
        · rw [if_pos h1]
        · have h2 : n = ['.', '.'] := by
            by_contra h2
            exact hn ⟨h1, h2⟩
          rw [if_neg h1, if_pos h2, ite_self]
      rw [walk_cons_some hself, Mounted.walk_root cs, List.forall_mem_cons]
      exact and_congr_right fun _ => (and_iff_right hn).symm

variable (hlen : s.mountTable.length + 1 < maxMounts) (hfree : ∀ m ∈ s.mountTable, m.1 ≠ x)
include hlen hfree

theorem Mounted.edge_mountpoint (hv : v < s.nrDentry) (hn : Proper n) (hl : dLookup s v n = some x) :
    edge t v n = some s.nrDentry := by
  rw [edge_of_proper hn, h.dLookup_eq hs hv, hl, Option.map_some, h.crossMount_eq, if_pos ⟨hlen, rfl, hfree⟩]

omit hlen hfree in
theorem Mounted.edge_other (hv : v < s.nrDentry) (hl : ¬(Proper n ∧ dLookup s v n = some x)) : edge t v n = edge s v n := by
  by_cases hn : Proper n
  · refine h.edge_eq hs hv fun c hc => ?_
    rw [h.crossMount_eq, if_neg]
    rintro ⟨-, rfl, -⟩
    exact hl ⟨hn, hc⟩
  · have hpar : t.parent v = s.parent v := congrArg Dentry.dParent (h.dentries v hv)
    unfold edge
    rw [hpar, h.root]
    by_cases h1 : n = ['.']
    · rw [if_pos h1, if_pos h1]
    · have h2 : n = ['.', '.'] := by
        by_contra h2
        exact hn ⟨h1, h2⟩
      rw [if_neg h1, if_neg h1, if_pos h2, if_pos h2]

omit hlen hfree in
/-- A walk that does not look the mountpoint up is the walk it was. -/
theorem Mounted.resolve_of_not_passes (hp : ¬Passes s x cs) : resolve t cs = resolve s cs := by
  unfold resolve
  rw [h.root]
  exact walk_congr cs fun q hq => h.edge_other hs (hs.asked_lt _ q hq) fun hc => hp ⟨q, hq, hc⟩

/-- **A walk that ends at the new root** looked the mountpoint up and met dots from there on. -/
theorem Mounted.through : ∀ (cs : List Name) {v : Nat}, v < s.nrDentry → walk (edge t) v cs = .ok s.nrDentry →
    ∃ pre n dots w, cs = pre ++ n :: dots ∧ Proper n ∧ (∀ m ∈ dots, ¬Proper m) ∧ walk (edge s) v pre = .ok w ∧
      dLookup s w n = some x ∧ ∀ q ∈ asked (edge s) v pre, ¬(Proper q.2 ∧ dLookup s q.1 q.2 = some x)
  | [], v, hv, hw => absurd (Except.ok.inj hw) (Nat.ne_of_lt hv)
  | n :: cs, v, hv, hw => by
    by_cases hl : Proper n ∧ dLookup s v n = some x
    · rw [walk_cons_some (h.edge_mountpoint hs hlen hfree hv hl.1 hl.2)] at hw
      exact ⟨[], n, cs, v, rfl, hl.1, ((h.walk_root cs).1 hw).2, rfl, hl.2, nofun⟩
    · have hsame := h.edge_other hs hv hl
      cases he : edge s v n with
      | none =>
        rw [walk_cons_none (hsame.trans he)] at hw
        cases hw
      | some u =>
        rw [walk_cons_some (hsame.trans he)] at hw
        obtain ⟨pre, m, dots, w, rfl, hm, hdots, hpre, hlook, hnot⟩ := Mounted.through cs (hs.edge_lt hv he) hw
        refine ⟨n :: pre, m, dots, w, rfl, hm, hdots, (walk_cons_some he).trans hpre, hlook, fun q hq => ?_⟩
        rw [asked_cons_some he, List.mem_cons] at hq
        rcases hq with rfl | hq
        · exact hl
        · exact hnot q hq

end Mounted

/-! ## When a mount shows -/

theorem Mounted.visible (hs : Tree s) (h : Mounted s t x) (ht : Wf t) (hshow : Shows s dir x) : Visible s t dir x := by
  obtain ⟨pre, n, dots, v, hcs, hn, hdots, hpre, hlook, hpass⟩ := hshow.last
  have hv : v < s.nrDentry := hs.resolve_lt hpre
  have hdir : resolve t (components dir) = .ok s.nrDentry := by
    have hpre' : resolve t pre = .ok v := (h.resolve_of_not_passes hs hpass).trans hpre
    rw [hcs, resolve, walk_append_ok pre hpre', walk_cons_some (h.edge_mountpoint hs hshow.room hshow.unmounted hv hn hlook)]
    exact (h.walk_root dots).2 ⟨rfl, hdots⟩
  refine ⟨fun f => (resolves_iff ht).2 ⟨_, hdir, reach_of_not (isSymlink_of_isDir h.isDir_root) f, ?_⟩, fun q => ?_,
    fun p f d hp => h.resolves_eq hs ht (h.resolve_of_not_passes hs hp)⟩
  · obtain ⟨i, hi, -⟩ := h.isDir_root
    exact fun hnone => by cases hi.symm.trans hnone
  · rw [components_append]
    exact walk_append_ok _ hdir

theorem Mounted.shows (hs : Tree s) (h : Mounted s t x) (ht : Tree t) (hx : Resolves s true dir x)
    (hvis : Resolves t true dir s.nrDentry) : Shows s dir x := by
  obtain ⟨e, he, hr, -⟩ := (resolves_iff hs.toWf).1 hx
  have hxlt : x < s.nrDentry := reach_lt hs (hs.resolve_lt he) hr
  by_cases hcross : s.mountTable.length + 1 < maxMounts ∧ ∀ m ∈ s.mountTable, m.1 ≠ x
  · obtain ⟨hlen, hfree⟩ := hcross
    have hmem : (x, s.nrDentry) ∈ t.mountTable := by
      rw [h.table, if_pos hlen]
      exact List.mem_append_right _ (List.mem_singleton_self _)
    obtain ⟨e', he', hr', -⟩ := (resolves_iff ht.toWf).1 hvis
    obtain rfl : e' = s.nrDentry := ht.reach_root hmem hr'
    unfold resolve at he'
    rw [h.root] at he'
    obtain ⟨pre, n, dots, v, hcs, hn, hdots, hpre, hlook, hpass⟩ := h.through hs hlen hfree _ hs.root.1 he'
    exact ⟨hlen, hfree, pre, n, dots, v, hcs, hn, hdots, hpre, hlook, fun ⟨q, hq, hc⟩ => hpass q hq hc⟩
  · -- the crossings are the old ones, and the path still leads to the mountpoint
    have hold : Resolves t true dir x := (h.resolves_of_cross hs ht.toWf (fun c => by
      rw [h.crossMount_eq, if_neg fun hc => hcross ⟨hc.1, hc.2.2⟩]) dir true x).2 hx
    exact absurd (Except.ok.inj (hold.1.symm.trans hvis.1)) (Nat.ne_of_lt hxlt)

/-- **When a mount keeps its promise**: where it finds no memory, and where what it mounts shows. -/
theorem mount_iff (hs : Tree s) (hx : Resolves s true dir x) :
    MountLaws s dir x ↔ (roomForMount s.kmalloc = true → Shows s dir x) := by
  have ht : Tree (doMount s dir).2 := Edits.tree (hs.doMount_edits dir : Edits False _ _) hs
  rcases doMount_cases hs hx with ⟨hroom, hzero, h⟩ | ⟨hroom, herr, h⟩
  · constructor
    · exact fun hlaws _ => h.shows hs ht hx ((hlaws.done hzero).here true)
    · exact fun hshow => ⟨fun _ => h.visible hs ht.toWf (hshow hroom), fun herr => absurd hzero herr⟩
  · refine iff_of_true ⟨fun hzero => absurd hzero herr, fun _ p f d => ?_⟩ fun hc => nomatch hroom.symm.trans hc
    refine h.resolves_of_cross hs ht.toWf (fun c => ?_) p f d
    unfold crossMount
    rw [h.table]

theorem tree_mkdir : Tree (sysMkdir (rootfs []) ['/', 'd'] 0x1ED).2 := tree_of_run [.mkdir ['/', 'd'] 0x1ED] ⟨[], rfl⟩ rfl

/-- A mount on `/d`. -/
theorem mount_iff_mkdir : MountLaws (sysMkdir (rootfs []) ['/', 'd'] 0x1ED).2 ['/', 'd'] 1 :=
  (mount_iff tree_mkdir ⟨by decide, by decide⟩).2 fun _ =>
    ⟨by decide, nofun, [], ['d'], [], 0, by decide, by decide, nofun, rfl, by decide, fun ⟨_, hq, _⟩ => nomatch hq⟩

/-- Mounts on `/`, and a second time on `/d`, return 0 and show nothing. -/
theorem not_mountLaws_rootfs : (Tree (rootfs []) ∧ Resolves (rootfs []) true ['/'] 0 ∧ IsDir (rootfs []) 0 ∧
      ¬MountLaws (rootfs []) ['/'] 0) ∧
    Tree mountedFs ∧ Resolves mountedFs true ['/', 'd'] 2 ∧ IsDir mountedFs 2 ∧ ¬MountLaws mountedFs ['/', 'd'] 2 := by
  have hroot : (kernPath (doMount (rootfs []) ['/']).2 ['/'] ⟨false, true⟩).1 = .ok 0 := by decide
  have hagain : (kernPath (doMount mountedFs ['/', 'd']).2 ['/', 'd'] ⟨false, true⟩).1 = .ok 2 := by decide
  refine ⟨⟨tree_rootfs [], ⟨by decide, by decide⟩, ⟨0, by decide, by decide⟩, fun h => ?_⟩, tree_mountedFs,
    ⟨by decide, by decide⟩, ⟨2, by decide, by decide⟩, fun h => ?_⟩
  · have hnew := ((h.done (by decide)).here true).1
    rw [hroot] at hnew
    cases hnew
  · have hnew := ((h.done (by decide)).here true).1
    rw [hagain] at hnew
    exact absurd (Except.ok.inj hnew) (by decide)

end Vfs
end Pico
