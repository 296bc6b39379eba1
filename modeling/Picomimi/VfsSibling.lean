import Picomimi.VfsRun
import Picomimi.VfsAt
/-!
# VfsSibling — the names in a directory

`d_alloc` does not ask whether the name is taken.  `mkdir`, `mknod` and `symlink` ask before they call it; `link`, `mknodat`,
`symlinkat` and an `open` that makes a file do not.  In a run whose calls of the second kind find the name free, no directory has
two entries of one name (`siblings_of_run`).
-/
namespace Pico
namespace Vfs

open Lib

variable {s t u : Fs} {c d e i k p v : Nat} {m n : Name} {path : List Char} {P : Prop}

/-- **No two entries of a directory that have an inode bear one name.** -/
def Unique (s : Fs) : Prop :=
  ∀ p, ∀ c ∈ s.subdirs p, ∀ e ∈ s.subdirs p, s.inode c ≠ none → s.inode e ≠ none → s.name c = s.name e → c = e

/-! ## The calls -/

/-- The directory `sys_mknodat` and `sys_symlinkat` make the entry in, for a path relative to a descriptor. -/
def atParent (s : Fs) (fget : Nat → Option Nat) (dirfd : Int) (path : List Char) : Option Nat :=
  match kmallocOk s with
  | (false, _) => none
  | (true, s) => (atResolve s fget dirfd (atDirName path) lookupFollow).1.toOption

/-- The calls on names: those of `Call`, and two of the `*at` calls. -/
inductive NameCall where
  | plain (a : Call)
  | mknodat (fget : Nat → Option Nat) (dirfd : Int) (path : List Char) (mode dev : Nat)
  | symlinkat (target : List Char) (fget : Nat → Option Nat) (newdir : Int) (path : List Char)

namespace NameCall

def run (s : Fs) : NameCall → Fs
  | .plain a => a.run s
  | .mknodat fget dirfd path mode dev => (sysMknodat s fget dirfd path mode dev).2
  | .symlinkat target fget newdir path => (sysSymlinkat s target fget newdir path).2

/-- The directory in which the call makes an entry. -/
def dir (s : Fs) : NameCall → Option Nat
  | .plain (.mkdir path _) => (kernPath s path lookupParent).1.toOption
  | .plain (.mknod path _ _) => (kernPath s path lookupParent).1.toOption
  | .plain (.symlink _ path) => (kernPath s path lookupParent).1.toOption
  | .plain (.link oldpath newpath) => linkParent s oldpath newpath
  | .plain (.openAt path flags _) => openParent s path flags
  | .mknodat fget dirfd path _ _ =>
    if isPlain dirfd path then (kernPath s path lookupParent).1.toOption else atParent s fget dirfd path
  | .symlinkat _ fget newdir path =>
    if isPlain newdir path then (kernPath s path lookupParent).1.toOption else atParent s fget newdir path
  | .plain _ => none

/-- The name of the entry. -/
def name : NameCall → Name
  | .plain (.mkdir path _) => baseName path
  | .plain (.mknod path _ _) => baseName path
  | .plain (.symlink _ path) => baseName path
  | .plain (.link _ newpath) => baseName newpath
  | .plain (.openAt path _ _) => baseName path
  | .mknodat _ _ path _ _ => baseName path
  | .symlinkat _ _ _ path => baseName path
  | .plain _ => []

/-- Does the call ask whether the name is there? -/
def asks : NameCall → Bool
  | .plain (.link _ _) => false
  | .plain (.openAt _ _ _) => false
  | .mknodat _ dirfd path _ _ => isPlain dirfd path
  | .symlinkat _ _ newdir path => isPlain newdir path
  | .plain _ => true

/-- The call fails with `EEXIST` and leaves the state as it is. -/
def Refused (s : Fs) : NameCall → Prop
  | .plain (.mkdir path mode) => sysMkdir s path mode = (-eexist, s)
  | .plain (.mknod path mode dev) => sysMknod s path mode dev = (-eexist, s)
  | .plain (.symlink target path) => sysSymlink s target path = (-eexist, s)
  | .plain (.link oldpath newpath) => sysLink s oldpath newpath = (-eexist, s)
  | .plain (.openAt path flags mode) => filpOpen s path flags mode = (.error (-eexist), s)
  | .mknodat fget dirfd path mode dev => sysMknodat s fget dirfd path mode dev = (-eexist, s)
  | .symlinkat target fget newdir path => sysSymlinkat s target fget newdir path = (-eexist, s)
  | .plain _ => True

end NameCall

/-- **The call asks for the name, or the name is free.** -/
def Fresh (s : Fs) (a : NameCall) : Prop := a.asks = true ∨ ∀ p, a.dir s = some p → Free s p a.name

/-- The calls on names, after `init_rootfs`. -/
def nameMachine : Machine Fs NameCall where
  init s := ∃ as, s = rootfs as
  step s a := some (a.run s)

/-- **What holds of the names in every state.** -/
structure SiblingLaws (s : Fs) : Prop where
  unique : Unique s
  refused : ∀ a : NameCall, Fresh s a → ∀ p, a.dir s = some p → a.name ≠ [] → ¬Free s p a.name → a.Refused s

/-! ## What a change keeps -/

theorem Grow.unique (h : Grow s t) (hu : Unique s) : Unique t := by
  cases h with
  | mem as => exact hu
  | add q m hq =>
    have hold : ∀ p c, c ∈ (addDentry s q m).subdirs p → (addDentry s q m).inode c ≠ none →
        c ∈ s.subdirs p ∧ s.inode c ≠ none ∧ (addDentry s q m).name c = s.name c := by
      intro p c hc hci
      rw [inode_addDentry hq] at hci
      by_cases hnew : c = s.nrDentry
      · exact absurd (if_pos hnew) hci
      · rw [if_neg hnew] at hci
        refine ⟨?_, hci, (name_addDentry hq c).trans (if_neg hnew)⟩
        rw [subdirs_addDentry hq] at hc
        split at hc
        · cases hc
        · split at hc
          · rename_i hp
            subst hp
            exact (List.mem_cons.1 hc).resolve_left hnew
          · exact hc
    intro p c hc e he hci hei hn
    obtain ⟨hc', hci', hcn⟩ := hold p c hc hci
    obtain ⟨he', hei', hen⟩ := hold p e he hei
    exact hu p c hc' e he' hci' hei' (hcn.symm.trans (hn.trans hen))

/-- **An entry made where its name is free is the only one.** -/
theorem Unique.fill (hs : Wf s) (hu : Unique s) (ha : Alone s d) (i : Nat) : Unique (dInstantiate s d (some i)) := by
  have hfix : ∀ v, (dInstantiate s d (some i)).subdirs v = s.subdirs v ∧ (dInstantiate s d (some i)).name v = s.name v := by
    intro v
    unfold Fs.subdirs Fs.name
    rw [dentries_dInstantiate]
    exact ⟨rfl, rfl⟩
  have hother : ∀ p c, c ∈ s.subdirs p → d ∈ s.subdirs p → s.name c = s.name d → s.inode c = none := by
    intro p c hc hd hn
    rw [← (hs.child p d hd).1] at hc
    exact ha c hc hn
  intro p c hc e he hci hei hn
  rw [(hfix p).1] at hc he
  rw [(hfix c).2, (hfix e).2] at hn
  rw [inode_dInstantiate] at hci hei
  by_cases hcd : c = d
  · by_cases hed : e = d
    · exact hcd.trans hed.symm
    · rw [if_neg hed] at hei
      rw [hcd] at hc hn
      exact absurd (hother p e he hc hn.symm) hei
  · rw [if_neg hcd] at hci
    by_cases hed : e = d
    · rw [hed] at he hn
      exact absurd (hother p c hc he hn) hci
    · rw [if_neg hed] at hei
      exact hu p c hc e he hci hei hn

/-- A directory there is not has no entries. -/
theorem Wf.subdirs_new (hs : Wf s) (hv : ¬v < s.nrDentry) : s.subdirs v = [] := by
  refine List.eq_nil_iff_forall_not_mem.2 fun c hc => hv ?_
  obtain ⟨hpar, -, hlt⟩ := hs.child v c hc
  rw [← hpar]
  exact hs.parent_lt c hlt

theorem Unique.of_old (hs : Wf s) (hu : Unique s) (hold : ∀ v, v < s.nrDentry → t.dentries v = s.dentries v)
    (hnew : ∀ v, ¬v < s.nrDentry → t.subdirs v = []) : Unique t := by
  intro p c hc e he hci hei hn
  by_cases hp : p < s.nrDentry
  · rw [Fs.subdirs, hold p hp] at hc he
    have hcs := hold c (hs.child p c hc).2.2
    have hes := hold e (hs.child p e he).2.2
    rw [Fs.inode, hcs] at hci
    rw [Fs.inode, hes] at hei
    rw [Fs.name, Fs.name, hcs, hes] at hn
    exact hu p c hc e he hci hei hn
  · rw [hnew p hp] at hc
    cases hc

theorem Edit.unique (h : Edit True s t) (hs : Wf s) (hu : Unique s) : Unique t := by
  cases h with
  | grow _ h => exact h.unique hu
  | newInode => exact hu
  | setInode i v _ _ => exact hu
  | nlink i k => exact hu
  | counters a b c d e f => exact hu
  | fill d i _ _ _ ha => exact hu.fill hs (ha trivial) i
  | unlist d =>
    intro p c hc e he hci hei hn
    have hsub : ∀ {x}, x ∈ (listDelInit s d).subdirs p → x ∈ s.subdirs p := by
      intro x hx
      rw [subdirs_listDelInit] at hx
      split at hx
      · exact List.mem_of_mem_erase hx
      · exact hx
    rw [inode_listDelInit] at hci hei
    rw [name_listDelInit, name_listDelInit] at hn
    exact hu p c (hsub hc) e (hsub he) hci hei hn
  | setName d m hd =>
    have hfix : ∀ v, (s.setDentry d { s.dentries d with dName := m }).subdirs v = s.subdirs v ∧
        (s.setDentry d { s.dentries d with dName := m }).inode v = s.inode v := by
      intro v
      by_cases hv : v = d
      · simp [Fs.subdirs, Fs.inode, Fs.setDentry, hv]
      · simp [Fs.subdirs, Fs.inode, Fs.setDentry, Function.update_of_ne hv]
    have hname : ∀ v, v ≠ d → (s.setDentry d { s.dentries d with dName := m }).name v = s.name v := fun v hv =>
      congrArg Dentry.dName (Function.update_of_ne hv _ _)
    intro p c hc e he hci hei hn
    rw [(hfix p).1] at hc he
    rw [(hfix _).2] at hci hei
    have hcd : c ≠ d := fun h => hd p (h ▸ hc)
    have hed : e ≠ d := fun h => hd p (h ▸ he)
    rw [hname c hcd, hname e hed] at hn
    exact hu p c hc e he hci hei hn
  | addRoot m i hi hdir =>
    have hold : ∀ v, v ≠ s.nrDentry → ({ s.setDentry s.nrDentry ⟨m, s.nrDentry, some i, []⟩ with
        nrDentry := s.nrDentry + 1 } : Fs).dentries v = s.dentries v := fun v hv => Function.update_of_ne hv _ _
    refine Unique.of_old hs hu (fun v hv => hold v (Nat.ne_of_lt hv)) fun v hv => ?_
    by_cases hnew : v = s.nrDentry
    · subst hnew
      show (Function.update s.dentries s.nrDentry ⟨m, s.nrDentry, some i, []⟩ s.nrDentry).dSubdirs = []
      rw [Function.update_self]
    · exact (congrArg Dentry.dSubdirs (hold v hnew)).trans (hs.subdirs_new hv)
  | mount x r i hx hr hpar hi hdir => exact hu

theorem Edits.unique (h : Edits True s t) (hs : Wf s) (hu : Unique s) : Unique t := by
  induction h with
  | refl => exact hu
  | tail hst h ih => exact h.unique (Edits.wf hst hs) ih

/-! ## The calls, as changes -/

theorem Wf.atResolve (hs : Wf s) (fget : Nat → Option Nat) (dirfd : Int) (path : List Char) (flags : LookupFlags) :
    Kept s (atResolve s fget dirfd path flags) := by
  unfold Vfs.atResolve
  split
  · exact hs.kernPath path flags
  · split
    · exact Kept.error .refl _
    · rename_i base _
      split
      · exact Kept.error .refl _
      · split
        · exact Kept.error .refl _
        · have hat : Grows s (atPath s base path).2 := by
            unfold atPath
            rw [kmallocOk_eq]
            have hmem := grows_mem s s.kmalloc.tail
            cases answer s.kmalloc with
            | false => exact hmem
            | true =>
              dsimp only
              split
              · exact hmem
              · rw [kmallocOk_eq]
                cases answer (withMem s s.kmalloc.tail).kmalloc with
                | false => exact hmem.tail (.mem _ _)
                | true => exact hmem.tail (.mem _ _)
          split
          · rename_i h
            rw [h] at hat
            exact Kept.error hat _
          · rename_i h
            rw [h] at hat
            exact (Wf.kernPath (hat.wf hs) _ _).after hat

theorem Wf.atNewDentry_edits (hs : Wf s) {fget : Nat → Option Nat} {dirfd : Int} {path : List Char}
    {make : Fs → Option Nat → Nat → Int × Fs}
    (hmake : ∀ t d, Wf t → t.inode d = none → (P → Alone t d) → Edits P t (make t (t.inode (t.parent d)) d).2)
    (hf : P → ∀ p, atParent s fget dirfd path = some p → Free s p (baseName path)) :
    Edits P s (atNewDentry s fget dirfd path make).2 := by
  unfold atNewDentry
  unfold atParent at hf
  have hmem := grows_mem s s.kmalloc.tail
  rw [kmallocOk_eq] at hf ⊢
  generalize answer s.kmalloc = room at hf ⊢
  cases room with
  | false => exact Grows.edits hmem
  | true =>
    dsimp only at hf ⊢
    have hkept := Wf.atResolve (hmem.wf hs) fget dirfd (atDirName path) lookupFollow
    cases h : Vfs.atResolve (withMem s s.kmalloc.tail) fget dirfd (atDirName path) lookupFollow with
    | mk r u =>
      rw [h] at hf hkept
      have hsu : Grows s u := hmem.trans hkept.grows
      cases r with
      | error err => exact hsu.edits
      | ok parent =>
        dsimp only
        split
        · rename_i ha
          exact hsu.edits.trans ((hsu.wf hs).dAlloc_then (hkept.lt _ rfl) ha).2.1
        · rename_i d w ha
          obtain ⟨hwf, huw, hd⟩ := (hsu.wf hs).dAlloc_then (P := P) (hkept.lt _ rfl) ha
          obtain ⟨-, hneg, hpar, -⟩ := hd d rfl
          have hm := hmake w d hwf hneg fun hP => alone_dAlloc (hkept.lt _ rfl) ha (hsu.free (hf hP parent rfl))
          rw [hpar] at hm
          exact (hsu.edits.trans huw).trans hm

/-- **A call that asks for the name, or finds it free, makes it its entry's own.** -/
theorem Wf.nameCall_edits (hs : Wf s) {a : NameCall} (hf : P → Fresh s a) : Edits P s (a.run s) := by
  have hmknod : ∀ mode dev t d, Wf t → t.inode d = none → (P → Alone t d) →
      Edits P t (vfsMknod t (t.inode (t.parent d)) d mode dev).2 := fun mode dev t d ht hneg ha =>
    ht.vfsMknod_edits hneg ha mode dev
  have hsymlink : ∀ target t d, Wf t → t.inode d = none → (P → Alone t d) →
      Edits P t (vfsSymlink t (t.inode (t.parent d)) d target).2 := fun target t d ht hneg ha =>
    ht.vfsSymlink_edits hneg ha target
  have hfree : P → a.asks = false → ∀ p, a.dir s = some p → Free s p a.name := fun hP hasks =>
    (hf hP).resolve_left (Bool.eq_false_iff.1 hasks)
  cases a with
  | plain a =>
    cases a with
    | mkdir path mode => exact hs.sysMkdir_edits path mode
    | rmdir path => exact hs.sysRmdir_edits path
    | mknod path mode dev => exact hs.withNewDentry_edits path fun t d ht hneg ha => hmknod mode dev t d ht hneg fun _ => ha
    | symlink target path => exact hs.withNewDentry_edits path fun t d ht hneg ha => hsymlink target t d ht hneg fun _ => ha
    | link oldpath newpath => exact hs.sysLink_edits oldpath newpath fun hP => hfree hP rfl
    | rename oldpath newpath => exact hs.sysRename_edits oldpath newpath
    | unlink path => exact hs.sysUnlink_edits path
    | stat path => exact hs.sysStat_edits path
    | access root path mode => exact hs.sysAccess_edits root path mode
    | openAt path flags mode => exact hs.filpOpen_edits path flags mode fun hP => hfree hP rfl
    | mount path => exact hs.doMount_edits path
  | mknodat fget dirfd path mode dev =>
    show Edits P s (sysMknodat s fget dirfd path mode dev).2
    unfold sysMknodat
    split
    · exact hs.withNewDentry_edits path fun t d ht hneg ha => hmknod mode dev t d ht hneg fun _ => ha
    · rename_i hplain
      refine hs.atNewDentry_edits (hmknod mode dev) fun hP p hp => hfree hP (Bool.eq_false_iff.2 hplain) p ?_
      exact (if_neg hplain).trans hp
  | symlinkat target fget newdir path =>
    show Edits P s (sysSymlinkat s target fget newdir path).2
    unfold sysSymlinkat
    split
    · exact hs.withNewDentry_edits path fun t d ht hneg ha => hsymlink target t d ht hneg fun _ => ha
    · rename_i hplain
      refine hs.atNewDentry_edits (hsymlink target) fun hP p hp => hfree hP (Bool.eq_false_iff.2 hplain) p ?_
      exact (if_neg hplain).trans hp

/-! ## Every run -/

theorem kernPath_of_parent (h : (kernPath s path lookupParent).1.toOption = some p) : kernPath s path lookupParent = (.ok p, s) := by
  have heq := kernPath_eq s path true
  have hflags : lookupParent = ⟨true, false⟩ := rfl
  rw [hflags] at h ⊢
  cases hr : resolve s (walked true (components path)) with
  | ok e =>
    rw [hr] at heq
    rw [heq] at h ⊢
    cases h
    rfl
  | error q =>
    rw [hr] at heq
    obtain ⟨err, t, hmissed⟩ := missed_error s q
    dsimp only at heq
    rw [heq, hmissed] at h
    cases h

/-- **A call that asks for a name that is there** fails and changes nothing. -/
theorem withNewDentry_refused (h : (kernPath s path lookupParent).1.toOption = some p) (hn : ¬Free s p (baseName path))
    (make : Fs → Option Nat → Nat → Int × Fs) : withNewDentry s path make = (-eexist, s) := by
  unfold withNewDentry
  rw [kernPath_of_parent h]
  cases hl : dLookup s p (baseName path) with
  | none => exact absurd (free_of_dLookup hl) hn
  | some c => simp only [hl]

theorem refused_of_fresh {a : NameCall} (hf : Fresh s a) (hd : a.dir s = some p) (h0 : a.name ≠ []) (hn : ¬Free s p a.name) :
    a.Refused s := by
  have hasks : a.asks = true := hf.resolve_right fun hfree => hn (hfree p hd)
  cases a with
  | plain a =>
    cases a with
    | mkdir path mode =>
      show sysMkdir s path mode = (-eexist, s)
      rw [sysMkdir_of_base h0]
      exact withNewDentry_refused hd hn _
    | mknod path mode dev => exact withNewDentry_refused hd hn _
    | symlink target path => exact withNewDentry_refused hd hn _
    | link oldpath newpath => cases hasks
    | openAt path flags mode => cases hasks
    | rmdir path => trivial
    | rename oldpath newpath => trivial
    | unlink path => trivial
    | stat path => trivial
    | access root path mode => trivial
    | mount path => trivial
  | mknodat fget dirfd path mode dev =>
    have hplain : isPlain dirfd path = true := hasks
    have hd' : (if isPlain dirfd path then (kernPath s path lookupParent).1.toOption else atParent s fget dirfd path) =
      some p := hd
    rw [if_pos hplain] at hd'
    show sysMknodat s fget dirfd path mode dev = (-eexist, s)
    rw [sysMknodat, if_pos hplain]
    exact withNewDentry_refused hd' hn _
  | symlinkat target fget newdir path =>
    have hplain : isPlain newdir path = true := hasks
    have hd' : (if isPlain newdir path then (kernPath s path lookupParent).1.toOption else atParent s fget newdir path) =
      some p := hd
    rw [if_pos hplain] at hd'
    show sysSymlinkat s target fget newdir path = (-eexist, s)
    rw [sysSymlinkat, if_pos hplain]
    exact withNewDentry_refused hd' hn _

/-- **Where every call that does not ask finds the name free**, names are unique and taken names are refused. -/
theorem siblings_of_run (l : List NameCall) (hs : nameMachine.init s) (h : nameMachine.RunOk Fresh s l t) : SiblingLaws t := by
  obtain ⟨as, rfl⟩ := hs
  have hinv : Wf t ∧ Unique t := by
    refine nameMachine.runOk_invariant (P := fun u => Wf u ∧ Unique u) (fun u a v hu hok hstep => ?_) l _ t
      ⟨wf_rootfs as, fun _ _ hc => nomatch hc⟩ h
    cases hstep
    have hedits : Edits True u (a.run u) := hu.1.nameCall_edits fun _ => hok
    exact ⟨Edits.wf hedits hu.1, Edits.unique hedits hu.1 hu.2⟩
  exact ⟨hinv.2, fun a hf p hd h0 hn => refused_of_fresh hf hd h0 hn⟩

/-- A file, a link to it under a free name, and the file's name asked for once more. -/
theorem siblings_of_run_link : SiblingLaws ([NameCall.plain (.mknod ['/', 'f'] 0x81A4 0), .plain (.link ['/', 'f'] ['/', 'g']),
    .plain (.mknod ['/', 'f'] 0x81A4 0)].foldl NameCall.run (rootfs [])) := by
  refine siblings_of_run [.plain (.mknod ['/', 'f'] 0x81A4 0), .plain (.link ['/', 'f'] ['/', 'g']),
    .plain (.mknod ['/', 'f'] 0x81A4 0)] ⟨[], rfl⟩ ⟨.inl rfl, _, rfl, .inr fun p hp => ?_, _, rfl, .inl rfl, _, rfl, rfl⟩
  have hdir : NameCall.dir (NameCall.run (rootfs []) (.plain (.mknod ['/', 'f'] 0x81A4 0)))
      (.plain (.link ['/', 'f'] ['/', 'g'])) = some 0 := by decide +kernel
  rw [hdir] at hp
  cases hp
  unfold Free
  decide +kernel

/-- `link` and `mknodat` onto a name that is there: two entries `f` in the root. -/
theorem not_siblings : (sysLink (sysMknod (rootfs []) ['/', 'f'] 0x81A4 0).2 ['/', 'f'] ['/', 'f']).1 = 0 ∧
    ¬Unique (sysLink (sysMknod (rootfs []) ['/', 'f'] 0x81A4 0).2 ['/', 'f'] ['/', 'f']).2 ∧
    (sysMknodat (sysMknod (rootfs []) ['/', 'f'] 0x81A4 0).2 (fun _ => some 0) 3 ['f'] 0x81A4 0).1 = 0 ∧
    ¬Unique (sysMknodat (sysMknod (rootfs []) ['/', 'f'] 0x81A4 0).2 (fun _ => some 0) 3 ['f'] 0x81A4 0).2 := by
  refine ⟨by decide +kernel, fun h => ?_, by decide +kernel, fun h => ?_⟩
  · have h12 := h 0 1 (by decide +kernel) 2 (by decide +kernel) (by decide +kernel) (by decide +kernel) (by decide +kernel)
    cases h12
  · have h12 := h 0 1 (by decide +kernel) 2 (by decide +kernel) (by decide +kernel) (by decide +kernel) (by decide +kernel)
    cases h12

end Vfs
end Pico
