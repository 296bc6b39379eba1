import Picomimi.FileSize
import Picomimi.RamfsRun
import Picomimi.VfsNlink
/-!
# FileSizeRun — when the two sizes agree

Everything but a truncation keeps the sizes equal (`Edit.sized` for the calls on the tree, `Inv.fileWrite` for the writes), and
a truncation writes one of them only.  So the sizes are one fact exactly in the runs that truncate no file to a size it does not
have already (`sizes_iff`).
-/
namespace Pico
namespace FileSize

open Lib Vfs
open Ramfs (RamfsInode ramfsRead ramfsWrite growBuffer)

variable {P : Prop} {s t : Fs} {w u : World} {ri : Nat → RamfsInode} {i j d n : Nat} {path : List Char}

/-- A dentry has the inode. -/
def Named (s : Fs) (i : Nat) : Prop := ∃ d, d < s.nrDentry ∧ s.inode d = some i

/-- **The sizes agree**, and an inode no dentry has yet has a zeroed record. -/
structure Sized (s : Fs) (ri : Nat → RamfsInode) : Prop where
  agree : ∀ i, (s.inodes i).iPrivate = .ramfs → (s.inodes i).iSize = (ri i).size
  unused : ∀ i, ¬Named s i → ri i = ⟨none, 0, 0⟩

/-! ## The calls on the tree -/

theorem Grow.named (h : Grow s t) (hn : Named s i) : Named t i := by
  obtain ⟨d, hd, hi⟩ := hn
  cases h with
  | mem as => exact ⟨d, hd, hi⟩
  | add p m hp => exact ⟨d, Nat.lt_succ_of_lt hd, (inode_addDentry hp d).trans ((if_neg (Nat.ne_of_lt hd)).trans hi)⟩

/-- **No dentry loses its inode.** -/
theorem Edit.named (h : Edit P s t) (hn : Named s i) : Named t i := by
  cases h with
  | grow _ h => exact Grow.named h hn
  | newInode => exact hn
  | setInode => exact hn
  | nlink => exact hn
  | counters => exact hn
  | fill e j he =>
    obtain ⟨d, hd, hi⟩ := hn
    have hne : d ≠ e := fun h => by
      rw [h, he] at hi
      cases hi
    exact ⟨d, hd, (congrArg Dentry.dInode (Function.update_of_ne hne _ _)).trans hi⟩
  | unlist e =>
    obtain ⟨d, hd, hi⟩ := hn
    exact ⟨d, hd, (inode_listDelInit s e d).trans hi⟩
  | setName e m =>
    obtain ⟨d, hd, hi⟩ := hn
    refine ⟨d, hd, ?_⟩
    by_cases hde : d = e
    · simpa [Fs.inode, Fs.setDentry, hde] using hi
    · simpa [Fs.inode, Fs.setDentry, Function.update_of_ne hde] using hi
  | addRoot =>
    obtain ⟨d, hd, hi⟩ := hn
    exact ⟨d, Nat.lt_succ_of_lt hd, (congrArg Dentry.dInode (Function.update_of_ne (Nat.ne_of_lt hd) _ _)).trans hi⟩
  | mount => exact hn

theorem Edits.named (h : Edits P s t) (hn : Named s i) : Named t i := by
  induction h with
  | refl => exact hn
  | tail _ h ih => exact Edit.named h ih

/-- **The inode of a dentry keeps its kind and its size.** -/
theorem Edit.inode_named (h : Edit P s t) (hs : Wf s) (hn : Named s i) :
    (t.inodes i).iPrivate = (s.inodes i).iPrivate ∧ (t.inodes i).iSize = (s.inodes i).iSize := by
  obtain ⟨d, hd, hi⟩ := hn
  cases h with
  | grow _ h => cases h <;> exact ⟨rfl, rfl⟩
  | newInode =>
    have hne : i ≠ s.nrInode := Nat.ne_of_lt (hs.inode_lt d i hd hi)
    simp [Fs.setInode, Function.update_of_ne hne]
  | setInode j v hfree =>
    have hne : i ≠ j := fun h => hfree d hd (h ▸ hi)
    simp [Fs.setInode, Function.update_of_ne hne]
  | nlink j k =>
    by_cases hij : i = j
    · simp [Fs.setInode, hij]
    · simp [Fs.setInode, Function.update_of_ne hij]
  | counters => exact ⟨rfl, rfl⟩
  | fill => exact ⟨rfl, rfl⟩
  | unlist => exact ⟨rfl, rfl⟩
  | setName => exact ⟨rfl, rfl⟩
  | addRoot => exact ⟨rfl, rfl⟩
  | mount => exact ⟨rfl, rfl⟩

theorem Edits.private_named (h : Edits P s t) (hs : Wf s) (hn : Named s i) :
    (t.inodes i).iPrivate = (s.inodes i).iPrivate := by
  induction h with
  | refl => rfl
  | tail hst h ih => exact (Edit.inode_named h (Edits.wf hst hs) (Edits.named hst hn)).1.trans ih

/-- **A file the change made** has no bytes. -/
theorem Edit.inode_file (h : Edit P s t) (hp : (t.inodes i).iPrivate = .ramfs) :
    (t.inodes i).iSize = 0 ∨ (s.inodes i).iPrivate = .ramfs ∧ (t.inodes i).iSize = (s.inodes i).iSize := by
  cases h with
  | grow _ h => cases h <;> exact .inr ⟨hp, rfl⟩
  | newInode =>
    by_cases hi : i = s.nrInode
    · simp [Fs.setInode, hi, blankInode] at hp
    · simp only [Fs.setInode, Function.update_of_ne hi] at hp ⊢
      exact .inr ⟨hp, trivial⟩
  | setInode j v _ hv =>
    by_cases hi : i = j
    · subst hi
      simp only [Fs.setInode, Function.update_self] at hp ⊢
      exact .inl (hv hp)
    · simp only [Fs.setInode, Function.update_of_ne hi] at hp ⊢
      exact .inr ⟨hp, trivial⟩
  | nlink j k =>
    by_cases hi : i = j
    · subst hi
      simp only [Fs.setInode, Function.update_self] at hp ⊢
      exact .inr ⟨hp, trivial⟩
    · simp only [Fs.setInode, Function.update_of_ne hi] at hp ⊢
      exact .inr ⟨hp, trivial⟩
  | counters => exact .inr ⟨hp, rfl⟩
  | fill => exact .inr ⟨hp, rfl⟩
  | unlist => exact .inr ⟨hp, rfl⟩
  | setName => exact .inr ⟨hp, rfl⟩
  | addRoot => exact .inr ⟨hp, rfl⟩
  | mount => exact .inr ⟨hp, rfl⟩

/-- **A change of the tree leaves the sizes equal.** -/
theorem Edit.sized (h : Edit P s t) (hs : Wf s) (hz : Sized s ri) : Sized t ri := by
  refine ⟨fun i hp => ?_, fun i hn => hz.unused i fun hs => hn (Edit.named h hs)⟩
  by_cases hn : Named s i
  · obtain ⟨hpriv, hsize⟩ := Edit.inode_named h hs hn
    rw [hsize]
    exact hz.agree i (hpriv ▸ hp)
  · rcases Edit.inode_file h hp with h0 | ⟨hp', hsize⟩
    · rw [h0, hz.unused i hn]
    · rw [hsize]
      exact hz.agree i hp'

theorem Edits.sized (h : Edits P s t) (hs : Wf s) (hz : Sized s ri) : Sized t ri := by
  induction h with
  | refl => exact hz
  | tail hst h ih => exact Edit.sized h (Edits.wf hst hs) ih

theorem openDentry_named {flags : Nat} {f : File} (hd : d < s.nrDentry) (h : openDentry s d flags = (.ok f, t)) :
    Named t f.fInode := by
  unfold openDentry at h
  cases hi : s.inode d with
  | none =>
    rw [hi] at h
    cases h
  | some i =>
    rw [hi] at h
    dsimp only at h
    split at h
    · cases h
    · rw [kmallocOk_eq] at h
      cases ha : answer s.kmalloc with
      | false =>
        rw [ha] at h
        cases h
      | true =>
        rw [ha] at h
        cases h
        exact ⟨d, hd, hi⟩

/-- **An open file has an inode that a dentry has.** -/
theorem filpOpen_named (hs : Wf s) {flags mode : Nat} {f : File} (h : filpOpen s path flags mode = (.ok f, t)) :
    Named t f.fInode := by
  unfold filpOpen at h
  have hkept := hs.kernPath path lookupFollow
  cases hk : kernPath s path lookupFollow with
  | mk r s1 =>
    rw [hk] at h hkept
    cases r with
    | ok d => exact openDentry_named (hkept.lt d rfl) h
    | error e =>
      dsimp only at h
      have hs1 := hkept.grows.wf hs
      split at h
      · unfold openCreate at h
        have hparent := hs1.createParent path
        cases hp : createParent s1 path with
        | mk r s2 =>
          rw [hp] at h hparent
          cases r with
          | error e => cases h
          | ok parent =>
            have hs2 := hparent.grows.wf hs1
            have hlt : parent < s2.nrDentry := hparent.lt parent rfl
            dsimp only at h
            split at h
            · cases h
            · rename_i hpos
              split at h
              · cases h
              · split at h
                · cases h
                · rename_i e s3 ha
                  obtain ⟨hs3, -, hd⟩ := hs2.dAlloc_then (P := False) hlt ha
                  obtain ⟨-, hneg, hpar, hino, -⟩ := hd e rfl
                  split at h
                  · rename_i s4 hc
                    have hedits := hs3.ramfsCreate_edits (P := False) hneg (by rw [hpar, hino]; exact hpos) nofun (mode ||| 0x1A4)
                    rw [hc] at hedits
                    have hs4 := Edits.wf hedits hs3
                    have hagain := hs4.kernPath path lookupFollow
                    split at h
                    · cases h
                    · rename_i d' s5 hk'
                      rw [hk'] at hagain
                      exact openDentry_named (hagain.lt d' rfl) h
                  · cases h
      · cases h

theorem Grows.inodes_eq (h : Grows s t) : t.inodes = s.inodes := by
  induction h with
  | refl => rfl
  | tail _ h ih =>
    refine Eq.trans ?_ ih
    cases h <;> rfl

/-! ## Writes -/

theorem growBuffer_size {h h' : Slab.Heap} {r r' : RamfsInode} {fin : Nat} (hg : growBuffer h r fin = (some r', h')) :
    r'.size = r.size := by
  unfold growBuffer at hg
  split at hg
  · split at hg
    · cases hg
    · cases hg
      rfl
  · cases hg
    rfl

/-- **A write leaves both sizes at the same value.** -/
theorem ramfsWrite_sizes (h : Slab.Heap) {v : Ramfs.Inode} {r : RamfsInode} (hr : v.iPrivate = some r)
    (hsize : v.iSize = r.size) (buf : List UInt8) (pos : Nat) :
    ∃ r', (ramfsWrite h v buf pos).2.2.1.iPrivate = some r' ∧ (ramfsWrite h v buf pos).2.2.1.iSize = r'.size := by
  unfold ramfsWrite
  rw [hr]
  dsimp only
  split
  · exact ⟨r, hr, hsize⟩
  · rename_i r' h' hg
    have hsame := growBuffer_size hg
    dsimp only
    split
    · exact ⟨_, rfl, rfl⟩
    · exact ⟨r', rfl, hsize.trans hsame.symm⟩

theorem ramfsWrite_none (h : Slab.Heap) {v : Ramfs.Inode} (hv : v.iPrivate = none) (buf : List UInt8) (pos : Nat) :
    (ramfsWrite h v buf pos).2.2.1 = v := by
  unfold ramfsWrite
  rw [hv]

/-- The size in an inode set to the size its record has. -/
theorem Sized.setISize (hz : Sized s ri) (hn : (s.inodes i).iPrivate = .ramfs → n = (ri i).size) :
    Sized (s.setInode i { s.inodes i with iSize := n }) ri := by
  refine ⟨fun j hp => ?_, hz.unused⟩
  by_cases hij : j = i
  · subst hij
    simp only [Fs.setInode, Function.update_self] at hp ⊢
    exact hn hp
  · simp only [Fs.setInode, Function.update_of_ne hij] at hp ⊢
    exact hz.agree j hp

/-! ## The operations -/

/-- **What the operations keep**: a tree, equal sizes, and open files with an inode that a dentry has. -/
structure Inv (w : World) : Prop where
  wf : Wf w.fs
  sized : Sized w.fs w.ri
  opened : ∀ f ∈ w.files, Named w.fs f.file.fInode

theorem Inv.boot (as : List Bool) (h : Slab.Heap) : Inv (bootWorld as h) where
  wf := wf_rootfs as
  sized := ⟨fun _ hp => (nomatch hp), fun _ _ => rfl⟩
  opened := fun _ hf => (nomatch hf)

/-- The files and the records stay, and the tree changes. -/
theorem Inv.edits (hi : Inv w) (h : Edits P w.fs t) : Inv { w with fs := t } :=
  ⟨Edits.wf h hi.wf, Edits.sized h hi.wf hi.sized, fun f hf => Edits.named h (hi.opened f hf)⟩

theorem Inv.setISize (hi : Inv w) (hn : (w.fs.inodes i).iPrivate = .ramfs → n = (w.ri i).size) : Inv (w.setISize i n) :=
  ⟨hi.wf.setInode i _, hi.sized.setISize hn, hi.opened⟩

/-- An inode without a record put back as it was. -/
theorem Inv.put_view (hi : Inv w) (hp : (w.view i).iPrivate = none) (heap : Slab.Heap) :
    Inv { w.put i (w.view i) with heap := heap } := by
  have hnot : (w.fs.inodes i).iPrivate ≠ .ramfs := fun h => by simp [World.view, h] at hp
  unfold World.put
  rw [hp]
  exact ⟨hi.wf.setInode i _, hi.sized.setISize fun h => absurd h hnot, hi.opened⟩

/-- A size and a record put together. -/
theorem Inv.put_record (hi : Inv w) (hn : Named w.fs i) {v : Ramfs.Inode} {r : RamfsInode} (hr : v.iPrivate = some r)
    (hsize : v.iSize = r.size) (heap : Slab.Heap) : Inv { w.put i v with heap := heap } := by
  unfold World.put
  rw [hr]
  refine ⟨hi.wf.setInode i _, ⟨fun j hp => ?_, fun j hj => ?_⟩, hi.opened⟩
  · by_cases hij : j = i
    · subst hij
      simp only [World.setISize, Fs.setInode, Function.update_self]
      exact hsize
    · simp only [World.setISize, Fs.setInode, Function.update_of_ne hij] at hp ⊢
      exact hi.sized.agree j hp
  · have hij : j ≠ i := fun h => hj (h ▸ hn)
    simp only [Function.update_of_ne hij]
    exact hi.sized.unused j hj

/-- **A write keeps the sizes equal.** -/
theorem Inv.fileWrite (hi : Inv w) {f : File} (hn : Named w.fs f.fInode) (buf : List UInt8) (pos : Nat) :
    Inv (fileWrite w f buf pos).2.1 := by
  by_cases hp : (w.fs.inodes f.fInode).iPrivate = .ramfs
  · have hr : (w.view f.fInode).iPrivate = some (w.ri f.fInode) := if_pos hp
    obtain ⟨r, hr', hsize⟩ := ramfsWrite_sizes w.heap hr (hi.sized.agree _ hp) buf pos
    exact hi.put_record hn hr' hsize _
  · have hr : (w.view f.fInode).iPrivate = none := if_neg hp
    have hsame := ramfsWrite_none w.heap hr buf pos
    simp only [FileSize.fileWrite, hsame]
    exact hi.put_view hr _

theorem Inv.setPos (hi : Inv w) (fd pos : Nat) : Inv (w.setPos fd pos) := by
  refine ⟨hi.wf, hi.sized, fun f hf => ?_⟩
  obtain ⟨k, hk⟩ := List.getElem?_of_mem hf
  rw [World.setPos, List.getElem?_modify] at hk
  obtain ⟨g, hg, rfl⟩ := Option.map_eq_some_iff.1 hk
  have hnamed := hi.opened g (List.mem_of_getElem? hg)
  split
  · exact hnamed
  · exact hnamed

theorem truncateInode_grows (hs : Wf s) (path : List Char) : Grows s (truncateInode s path).2 := by
  have hkept := hs.kernPath path lookupFollow
  unfold truncateInode
  cases hk : kernPath s path lookupFollow with
  | mk r t =>
    rw [hk] at hkept
    cases r with
    | error e => exact hkept.grows
    | ok d =>
      dsimp only
      split
      · exact hkept.grows
      · split
        · exact hkept.grows
        · exact hkept.grows

theorem Inv.fsCall (hi : Inv w) (a : Call) : Inv (fsCall w a) := by
  have hedits := hi.wf.call_edits a
  cases a with
  | openAt path flags mode =>
    have hrun : Edits False w.fs (filpOpen w.fs path flags mode).2 := hedits
    simp only [FileSize.fsCall, sysOpen]
    cases ho : filpOpen w.fs path flags mode with
    | mk r t =>
      rw [ho] at hrun
      have hinv := hi.edits hrun
      cases r with
      | error e => exact hinv
      | ok f =>
        refine ⟨hinv.wf, hinv.sized, fun g hg => ?_⟩
        rcases List.mem_append.1 hg with hg | hg
        · exact hinv.opened g hg
        · rw [List.mem_singleton.1 hg]
          exact filpOpen_named hi.wf ho
  | _ => exact hi.edits hedits

/-- **A truncation to the size a file has keeps the sizes equal**, and so does everything else. -/
theorem Inv.run (hi : Inv w) {a : Op} (hok : TruncatesInPlace w a) : Inv (a.run w) := by
  cases a with
  | call a => exact hi.fsCall a
  | write fd buf =>
    simp only [Op.run, sysWrite]
    split
    · exact hi
    · rename_i f hf
      split
      · exact (hi.fileWrite (hi.opened f (List.mem_of_getElem? hf)) buf f.fPos).setPos fd _
      · exact hi
  | pwrite fd buf offset =>
    simp only [Op.run, sysPwrite]
    split
    · exact hi
    · split
      · exact hi
      · rename_i f hf
        split
        · exact hi
        · split
          · exact hi
          · exact hi.fileWrite (hi.opened f (List.mem_of_getElem? hf)) buf offset.toNat
  | read fd count =>
    simp only [Op.run, sysRead]
    split
    · exact hi
    · split
      · exact hi.setPos fd _
      · exact hi
  | lseek fd offset whence =>
    simp only [Op.run, sysLseek]
    split
    · exact hi
    · split
      · exact hi
      · exact hi.setPos fd _
  | truncate path length =>
    have hgrows := truncateInode_grows hi.wf path
    simp only [Op.run, sysTruncate]
    split
    · exact hi
    · rename_i hlen
      cases ht : truncateInode w.fs path with
      | mk r t =>
        rw [ht] at hgrows
        have hinv : Inv { w with fs := t } := hi.edits (hgrows.edits : Edits False w.fs t)
        cases r with
        | error e => exact hinv
        | ok i =>
          refine hinv.setISize fun hp => (hok i length.toNat ?_ ?_).symm
          · simp only [truncation, if_neg hlen, ht]
          · rw [← Grows.inodes_eq hgrows]
            exact hp
  | ftruncate fd length =>
    simp only [Op.run, sysFtruncate]
    split
    · exact hi
    · rename_i hlen
      cases hf : ftruncateInode w fd with
      | error e => exact hi
      | ok i =>
        refine hi.setISize fun hp => (hok i length.toNat ?_ hp).symm
        simp only [truncation, if_neg hlen, hf]

/-! ## Truncations -/

/-- **A truncation leaves the records as they are**, and the inode it is about was a file before it or is an empty one now. -/
theorem truncation_cases (hi : Inv w) {a : Op} (h : truncation w a = some (i, n)) : (a.run w).ri = w.ri ∧
    (((a.run w).fs.inodes i).iPrivate = (w.fs.inodes i).iPrivate ∨ (w.ri i).size = n) := by
  cases a with
  | call a =>
    cases a with
    | openAt path flags mode =>
      have hedits := hi.wf.call_edits (.openAt path flags mode)
      have hrun : Edits False w.fs (filpOpen w.fs path flags mode).2 := hedits
      simp only [truncation] at h
      simp only [Op.run, FileSize.fsCall, sysOpen]
      split at h
      · cases h
      · cases ho : filpOpen w.fs path flags mode with
        | mk r t =>
          rw [ho] at h hrun
          cases r with
          | error e => cases h
          | ok f =>
            cases h
            refine ⟨rfl, ?_⟩
            by_cases hn : Named w.fs f.fInode
            · exact .inl (Edits.private_named hrun hi.wf hn)
            · right
              rw [hi.sized.unused _ hn]
    | _ => cases h
  | truncate path length =>
    have hgrows := truncateInode_grows hi.wf path
    simp only [truncation] at h
    simp only [Op.run, sysTruncate]
    split at h
    · cases h
    · rename_i hlen
      rw [if_neg hlen]
      cases ht : truncateInode w.fs path with
      | mk r t =>
        rw [ht] at h hgrows
        cases r with
        | error e => cases h
        | ok j =>
          cases h
          have hsame : t.inodes = w.fs.inodes := Grows.inodes_eq hgrows
          refine ⟨rfl, .inl ?_⟩
          simp [World.setISize, Fs.setInode, hsame]
  | ftruncate fd length =>
    simp only [truncation] at h
    simp only [Op.run, sysFtruncate]
    split at h
    · cases h
    · rename_i hlen
      rw [if_neg hlen]
      cases hf : ftruncateInode w fd with
      | error e =>
        rw [hf] at h
        cases h
      | ok j =>
        rw [hf] at h
        cases h
        refine ⟨rfl, .inl ?_⟩
        simp [World.setISize, Fs.setInode]
  | _ => cases h

/-- **An operation leaves what it should exactly when it truncates no file to another size.** -/
theorem Inv.sizeLaws_iff (hi : Inv w) (a : Op) : SizeLaws w a ↔ TruncatesInPlace w a := by
  constructor
  · rintro ⟨-, hlaw⟩ i n h hp
    obtain ⟨hri, hpriv | hsize⟩ := truncation_cases hi h
    · rw [← hri]
      exact (hlaw i n h (hpriv.trans hp)).size
    · exact hsize
  · intro hok
    have hinv := hi.run hok
    refine ⟨hinv.sized.agree, fun i n h hp => ?_⟩
    have hview : ((a.run w).view i).iPrivate = some ((a.run w).ri i) := if_pos hp
    obtain ⟨hri, hcases⟩ := truncation_cases hi h
    have hsize : (w.ri i).size = n := by
      rcases hcases with hpriv | hsize
      · exact hok i n h (hpriv.symm.trans hp)
      · exact hsize
    have hsize' : ((a.run w).ri i).size = n := by rw [hri, hsize]
    refine ⟨(hinv.sized.agree i hp).trans hsize', hsize', fun pos count hle => ?_, fun k hle hlt => ?_⟩
    · exact Ramfs.ramfsRead_of_size_le hview (by rw [hsize']; exact hle)
    · rw [hsize] at hle
      exact absurd hlt (Nat.not_lt.2 hle)

/-- **The two sizes of a ramfs file are one fact throughout a run**, and its truncations do what they should, **exactly when
every truncation is to the size the file has already.** -/
theorem sizes_iff (l : List Op) (hw : machine.init w) : machine.RunOk SizeLaws w l u ↔ machine.RunOk TruncatesInPlace w l u := by
  obtain ⟨as, h, rfl⟩ := hw
  refine machine.runOk_iff (I := Inv) (fun v a hv => hv.sizeLaws_iff a) (fun v a v' hv hok hstep => ?_) l _ u (Inv.boot as h)
  cases hstep
  exact hv.run hok

/-- A file made and written, and truncated to its size in both ways. -/
theorem sizes_iff_same : ∃ u, machine.RunOk SizeLaws (bootWorld [] ⟨fun _ => 0, 0, 0, 0⟩)
    [.call (.openAt ['/', 'f'] (oCreat ||| oTrunc ||| 1) 0x1A4), .write 0 [1, 2, 3], .truncate ['/', 'f'] 3, .ftruncate 0 3] u := by
  have hrun : (machine.check TruncatesInPlace (bootWorld [] ⟨fun _ => 0, 0, 0, 0⟩)
      [.call (.openAt ['/', 'f'] (oCreat ||| oTrunc ||| 1) 0x1A4), .write 0 [1, 2, 3], .truncate ['/', 'f'] 3,
        .ftruncate 0 3]).isSome = true := by
    decide +kernel
  obtain ⟨u, h⟩ := Option.isSome_iff_exists.1 hrun
  exact ⟨u, (sizes_iff _ ⟨[], _, rfl⟩).2 (machine.runOk_of_check h)⟩

/-- A file of three bytes. -/
def threeBytes : World :=
  (Op.write 0 [1, 2, 3]).run ((Op.call (.openAt ['/', 'f'] (oCreat ||| 1) 0x1A4)).run (bootWorld [] ⟨fun _ => 0, 0, 0, 0⟩))

/-- A file of three bytes truncated to one, and opened with `O_TRUNC`. -/
theorem not_sizes : (∃ w l, machine.init w ∧ machine.run w l = some threeBytes) ∧
    ¬SizeLaws threeBytes (.truncate ['/', 'f'] 1) ∧ ¬SizeLaws threeBytes (.call (.openAt ['/', 'f'] (oTrunc ||| 1) 0)) := by
  refine ⟨⟨bootWorld [] ⟨fun _ => 0, 0, 0, 0⟩, [.call (.openAt ['/', 'f'] (oCreat ||| 1) 0x1A4), .write 0 [1, 2, 3]],
    ⟨[], _, rfl⟩, rfl⟩, fun h => ?_, fun h => ?_⟩
  · have hfile := h.1 1 (by decide +kernel)
    revert hfile
    decide +kernel
  · have hfile := (h.2 1 0 (by decide +kernel) (by decide +kernel)).size
    revert hfile
    decide +kernel

end FileSize
end Pico
