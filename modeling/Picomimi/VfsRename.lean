import Picomimi.VfsRemove
/-!
# VfsRename — what `rename` moves

`vfs_rename` takes the old dentry out of its list and gives it the new name, but puts it in no list: the file is on no path
any more.  What stays under the new name is the negative dentry `sys_rename` allocated for it.
-/
namespace Pico
namespace Vfs

open Lib

/-- **The file has moved**: in `t` the new path names what the old one did (the dentry `d`), the old path is gone, a file the
new path named before has lost that name, and the paths that ask neither for the entry of `d` nor for the new one name what
they named. -/
structure Renamed (s t : Fs) (old new : List Char) (d np : Nat) : Prop where
  moved : names t (components new) = s.inode d
  gone : (kernPath (withMem t []) old lookupNone).1 = .error (-enoent)
  lost : ∀ i, names s (components new) = some i → s.inode d ≠ some i → names t (components new) ≠ some i
  others : ∀ cs, (s.parent d, s.name d) ∉ asked (edge s) s.rootDentry cs →
    (np, baseName new) ∉ asked (edge s) s.rootDentry cs → names t cs = names s cs

/-- **`rename` moves the file, or fails and leaves the tree.** -/
structure Moves (s : Fs) (old new : List Char) (d np : Nat) : Prop where
  success : (sysRename s old new).1 = 0 → Renamed s (sysRename s old new).2 old new d np
  failure : (sysRename s old new).1 ≠ 0 → SameTree (sysRename s old new).2 s

variable {s t : Fs} {c d e i np v : Nat} {m n : Name} {old new : List Char}

theorem dentries_setDentry_of_ne (h : v ≠ d) (s : Fs) (x : Dentry) : (s.setDentry d x).dentries v = s.dentries v :=
  Function.update_of_ne h _ _

/-- The name of a dentry in no list is read by no lookup. -/
theorem edge_setName (h : ∀ v, d ∉ s.subdirs v) (n : Name) :
    edge (s.setDentry d { s.dentries d with dName := n }) = edge s := by
  funext v m
  have hsub : ∀ v, (s.setDentry d { s.dentries d with dName := n }).subdirs v = s.subdirs v := by
    intro v
    by_cases hv : v = d
    · simp [Fs.subdirs, Fs.setDentry, hv]
    · rw [Fs.subdirs, dentries_setDentry_of_ne hv]
      rfl
  have hpar : (s.setDentry d { s.dentries d with dName := n }).parent v = s.parent v := by
    by_cases hv : v = d
    · simp [Fs.parent, Fs.setDentry, hv]
    · rw [Fs.parent, dentries_setDentry_of_ne hv]
      rfl
  have hlookup : dLookup (s.setDentry d { s.dentries d with dName := n }) v m = dLookup s v m := by
    rw [dLookup, hsub]
    apply List.find?_congr
    intro c hc
    have hcd : c ≠ d := fun hcd => h v (hcd ▸ hc)
    rw [Fs.name, dentries_setDentry_of_ne hcd]
    rfl
  unfold edge
  rw [hlookup, hpar]
  rfl

theorem inode_setName (s : Fs) (d v : Nat) (n : Name) :
    (s.setDentry d { s.dentries d with dName := n }).inode v = s.inode v := by
  by_cases hv : v = d
  · simp [Fs.inode, Fs.setDentry, hv]
  · rw [Fs.inode, dentries_setDentry_of_ne hv]
    rfl

/-- Taking `d` out leaves a child list's first entry, when that is another one. -/
theorem Wf.edge_listDelInit_new (hs : Wf s) (hnp : np < s.nrDentry) (hd : d < s.nrDentry) (hn : Proper n) :
    edge (listDelInit (addDentry s np n) d) np n = some s.nrDentry := by
  have hlookup : dLookup (listDelInit (addDentry s np n) d) np n = some s.nrDentry := by
    rw [dLookup_listDelInit]
    have hname : decide ((addDentry s np n).name s.nrDentry = n) = true := by simp [name_addDentry hnp]
    have hsub : (addDentry s np n).subdirs np = s.nrDentry :: s.subdirs np := by
      rw [subdirs_addDentry hnp, if_neg (Nat.ne_of_lt hnp), if_pos rfl]
    split
    · have hne : ¬(s.nrDentry == d) = true := by simpa using Nat.ne_of_gt hd
      rw [hsub, List.erase_cons_tail hne]
      exact List.find?_cons_of_pos hname
    · rw [dLookup, hsub]
      exact List.find?_cons_of_pos hname
  rw [edge_of_proper hn, hlookup]
  exact congrArg some (hs.crossMount_new (Nat.le_refl _))

/-! ## The call -/

/-- The state a rename leaves: a negative dentry for the new name, and the old dentry in no list. -/
def afterRename (s : Fs) (d np : Nat) (n : Name) : Fs :=
  let u := listDelInit (addDentry s np n) d
  u.setDentry d { u.dentries d with dName := n }

theorem kernPath_parent_ok (h : resolve s (walked true (components new)) = .ok np) :
    kernPath s new lookupParent = (.ok np, s) := by
  rw [lookupParent, kernPath_eq, h]

theorem sysRename_of_no_room (hold : resolve s (components old) = .ok d)
    (hnew : resolve s (walked true (components new)) = .ok np) (h : roomFor s.kmalloc (baseName new) = false) :
    sysRename s old new = (-enomem, withMem s (leftFor s.kmalloc (baseName new))) := by
  simp only [sysRename, kernPath_none_ok hold, kernPath_parent_ok hnew, dAlloc_eq, h]
  rfl

/-- **With memory, a rename succeeds**, whatever stands at the new name. -/
theorem sysRename_of_room (hs : Wf s) (hold : resolve s (components old) = .ok d) (hpos : s.inode d ≠ none)
    (hnew : resolve s (walked true (components new)) = .ok np) (hnp : s.inode np ≠ none)
    (h : roomFor s.kmalloc (baseName new) = true) :
    sysRename s old new = (0, afterRename (withMem s (leftFor s.kmalloc (baseName new))) d np (baseName new)) := by
  have hd : d < s.nrDentry := hs.resolve_lt hold
  have hlt : np < (withMem s (leftFor s.kmalloc (baseName new))).nrDentry := hs.resolve_lt hnew
  have hino : ∀ v, v < s.nrDentry →
      (addDentry (withMem s (leftFor s.kmalloc (baseName new))) np (baseName new)).inode v = s.inode v := by
    intro v hv
    rw [inode_addDentry hlt]
    exact if_neg (Nat.ne_of_lt hv)
  have hpar : (addDentry (withMem s (leftFor s.kmalloc (baseName new))) np (baseName new)).parent d = s.parent d := by
    rw [parent_addDentry hlt]
    exact if_neg (Nat.ne_of_lt hd)
  have hneg : (addDentry (withMem s (leftFor s.kmalloc (baseName new))) np (baseName new)).inode s.nrDentry = none :=
    inode_addDentry_new _ _ _
  have hname : (listDelInit (addDentry (withMem s (leftFor s.kmalloc (baseName new))) np (baseName new)) d).name
      s.nrDentry = baseName new := by
    rw [name_listDelInit, name_addDentry hlt]
    exact if_pos rfl
  obtain ⟨i, hi⟩ := Option.ne_none_iff_exists'.1 hpos
  obtain ⟨j, hj⟩ := Option.ne_none_iff_exists'.1 hnp
  obtain ⟨k, hk⟩ := Option.ne_none_iff_exists'.1 (hs.positive d hd hpos)
  simp only [sysRename, kernPath_none_ok hold, kernPath_parent_ok hnew, dAlloc_eq, h, if_true, vfsRename, hpar,
    hino _ (hs.parent_lt d hd), hino d hd, hino np hlt, hi, hj, hk, hneg, hname]
  rfl

/-- **The new path leads to the dentry that was allocated for it**, which has no inode. -/
theorem EntryPath.names_afterRename (hp : EntryPath s new np n) (hs : Wf s) (hd : d < s.nrDentry)
    (hask : (s.parent d, s.name d) ∉ asked (edge s) s.rootDentry (components (dirName new))) :
    names (afterRename s d np n) (components new) = none := by
  have hlt : np < s.nrDentry := hs.resolve_lt hp.parent
  have hasked : asked (edge (addDentry s np n)) s.rootDentry (components (dirName new)) =
      asked (edge s) s.rootDentry (components (dirName new)) := hs.asked_addDentry hlt hp.direct
  have hentry : ((addDentry s np n).parent d, (addDentry s np n).name d) = (s.parent d, s.name d) := by
    rw [parent_addDentry hlt, name_addDentry hlt, if_neg (Nat.ne_of_lt hd), if_neg (Nat.ne_of_lt hd)]
  have hedge : edge (afterRename s d np n) = edge (listDelInit (addDentry s np n) d) :=
    edge_setName ((hs.add hlt n).not_mem_listDelInit d) n
  have hpre : walk (edge (listDelInit (addDentry s np n) d)) s.rootDentry (components (dirName new)) = .ok np :=
    calc walk (edge (listDelInit (addDentry s np n) d)) s.rootDentry (components (dirName new))
      _ = walk (edge (addDentry s np n)) s.rootDentry (components (dirName new)) := by
        refine walk_congr _ fun q hq => edge_listDelInit_of_ne fun hqe => hask ?_
        rw [hasked, show q = (s.parent d, s.name d) from hqe.trans hentry] at hq
        exact hq
      _ = walk (edge s) s.rootDentry (components (dirName new)) := hs.resolve_addDentry hlt hp.direct
      _ = .ok np := hp.parent
  have hres : resolve (afterRename s d np n) (components new) = .ok s.nrDentry := by
    rw [hp.comps, resolve, hedge]
    exact walk_snoc_some hpre (hs.edge_listDelInit_new hlt hd hp.proper)
  rw [names_of_ok hres, afterRename, inode_setName, inode_listDelInit]
  exact inode_addDentry_new _ _ _

/-- **When `rename` moves the file**: it never does.  What it meets is the case that it fails for want of memory, and only
that for a new path that ends in a name and does not run through the old entry or its own. -/
theorem moves_iff (hs : Wf s) (hold : resolve s (components old) = .ok d) (hpos : s.inode d ≠ none)
    (hnew : resolve s (walked true (components new)) = .ok np) (hnp : s.inode np ≠ none) :
    (roomFor s.kmalloc (baseName new) = false → Moves s old new d np) ∧
      ∀ n, EntryPath s new np n →
        (s.parent d, s.name d) ∉ asked (edge s) s.rootDentry (components (dirName new)) →
        (Moves s old new d np ↔ roomFor s.kmalloc (baseName new) = false) := by
  have hsuff : roomFor s.kmalloc (baseName new) = false → Moves s old new d np := by
    intro h
    have hcall := sysRename_of_no_room hold hnew h
    refine ⟨fun h0 => ?_, fun _ => ?_⟩
    · rw [hcall] at h0
      exact absurd h0 (by decide : -enomem ≠ 0)
    · rw [hcall]
      exact fun cs => ⟨rfl, fun _ _ => rfl⟩
  refine ⟨hsuff, fun n hp hask => ⟨fun h => ?_, hsuff⟩⟩
  by_contra hroom
  obtain rfl := hp.base
  have hcall := sysRename_of_room hs hold hpos hnew hnp (Bool.not_eq_false _ ▸ hroom)
  have hmem : Wf (withMem s (leftFor s.kmalloc (baseName new))) := hs.mem _
  have hp' : EntryPath (withMem s (leftFor s.kmalloc (baseName new))) new np (baseName new) :=
    ⟨rfl, hp.proper, hp.comps, hp.parent, hp.direct⟩
  have hmoved := h.success
  rw [hcall] at hmoved
  have hnames := (hmoved rfl).moved
  rw [hp'.names_afterRename hmem (hs.resolve_lt hold) hask] at hnames
  exact hpos hnames.symm

/-- `rename("/a", "/b")` without memory, and with it. -/
theorem moves_iff_root : Moves (withMem fileInRoot [false]) ['/', 'a'] ['/', 'b'] 1 0 ∧
    (Moves fileInRoot ['/', 'a'] ['/', 'b'] 1 0 ↔ roomFor fileInRoot.kmalloc ['b'] = false) := by
  have hs : Wf fileInRoot := (wf_rootfs []).call (.mknod ['/', 'a'] 0x81A4 0)
  have hp : EntryPath fileInRoot ['/', 'b'] 0 ['b'] := ⟨by decide, by decide, by rfl, by rfl, by decide⟩
  exact ⟨(moves_iff (hs.mem [false]) (by rfl) (by decide) (by rfl) (by decide)).1 (by decide),
    (moves_iff hs (by rfl) (by decide) (by rfl) (by decide)).2 ['b'] hp (by decide)⟩

/-- `rename("/a", "/b")` returns 0, and neither path names the file. -/
theorem not_moves_fileInRoot : Wf fileInRoot ∧ names fileInRoot (components ['/', 'a']) = some 1 ∧
    (sysRename fileInRoot ['/', 'a'] ['/', 'b']).1 = 0 ∧
    names (sysRename fileInRoot ['/', 'a'] ['/', 'b']).2 (components ['/', 'b']) = none ∧
    ¬Moves fileInRoot ['/', 'a'] ['/', 'b'] 1 0 := by
  refine ⟨(wf_rootfs []).call (.mknod ['/', 'a'] 0x81A4 0), by decide, by decide, by decide, fun h => ?_⟩
  have hmoved := (h.success (by decide)).moved
  revert hmoved
  decide

end Vfs
end Pico
