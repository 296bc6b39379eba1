import Picomimi.FilesRun
import Picomimi.Transfer
/-!
# TransferRun — the calls of `Transfer` in any order

A call moves positions, prints, and calls operations of files (`Via`): what these keep, every call keeps.  The machine takes
the calls in any order, by any task, between those of `Files` that make and share descriptors; the rest of the kernel may do to
the files' state what `env` says.  The flags a file was opened with are kept beside it.
-/
namespace Pico
namespace Transfer

open Lib

variable {σ : Type} {io : Fops σ}

/-! ## What the calls are made of -/

/-- **`t` is what some moves of positions, prints and calls of operations make of `s`.** -/
inductive Via (io : Fops σ) (s : Sys σ) : Sys σ → Prop
  | refl : Via io s s
  | setPos {t : Sys σ} (f pos : Nat) : Via io s t → Via io s (t.setPos f pos)
  | print {t : Sys σ} (buf : List UInt8) : Via io s t → Via io s (t.print buf)
  | read {t : Sys σ} {op : ReadOp σ} (f count pos : Nat) : io.read (t.file f).fOp = some op → Via io s t →
      Via io s (callRead t op f count pos).2.2
  | write {t : Sys σ} {op : WriteOp σ} (f : Nat) (buf : List UInt8) (pos : Nat) : io.write (t.file f).fOp = some op →
      Via io s t → Via io s (callWrite t op f buf pos).2.2

variable {s t u : Sys σ}

theorem Via.trans (h1 : Via io s t) (h2 : Via io t u) : Via io s u := by
  induction h2 with
  | refl => exact h1
  | setPos f pos _ ih => exact ih.setPos f pos
  | print buf _ ih => exact ih.print buf
  | read f count pos hop _ ih => exact ih.read f count pos hop
  | write f buf pos hop _ ih => exact ih.write f buf pos hop

/-- Only the positions of files change. -/
theorem Via.file (h : Via io s t) (f : Nat) : t.file f = { s.file f with fPos := (t.file f).fPos } := by
  induction h with
  | refl => rfl
  | @setPos t g pos _ ih =>
    by_cases hf : f = g
    · subst hf
      simp only [Sys.setPos, Function.update_self]
      rw [ih]
    · simp only [Sys.setPos, Function.update_of_ne hf]
      exact ih
  | print _ _ ih => exact ih
  | read _ _ _ _ _ ih => exact ih
  | write _ _ _ _ _ ih => exact ih

/-- **What the operations keep of the files' state, the calls keep.** -/
theorem Via.dev {P : σ → Prop}
    (hread : ∀ o op, io.read o = some op → ∀ file dev count pos, P dev → P (op file dev count pos).2.2)
    (hwrite : ∀ o op, io.write o = some op → ∀ file dev buf pos, P dev → P (op file dev buf pos).2.2)
    (h : Via io s t) (hs : P s.dev) : P t.dev := by
  induction h with
  | refl => exact hs
  | setPos _ _ _ ih => exact ih
  | print _ _ ih => exact ih
  | read f count pos hop _ ih => exact hread _ _ hop _ _ _ _ ih
  | write f buf pos hop _ ih => exact hwrite _ _ hop _ _ _ _ ih

/-! ## The calls -/

theorem vfsRead_via (s : Sys σ) (f count pos : Nat) : Via io s (vfsRead io s f count pos).2.2 := by
  unfold vfsRead
  cases hop : io.read (s.file f).fOp with
  | none => exact .refl
  | some op =>
    dsimp only
    split
    · exact .refl
    · exact Via.refl.read f count pos hop

theorem vfsWrite_via (s : Sys σ) (f : Nat) (buf : List UInt8) (pos : Nat) : Via io s (vfsWrite io s f buf pos).2.2 := by
  unfold vfsWrite
  cases hop : io.write (s.file f).fOp with
  | none => exact .refl
  | some op =>
    dsimp only
    split
    · exact .refl
    · exact Via.refl.write f buf pos hop

theorem readHere_via (s : Sys σ) (f count : Nat) : Via io s (readHere io s f count).2 :=
  (vfsRead_via s f count (s.file f).fPos).setPos f _

theorem writeHere_via (s : Sys σ) (f : Nat) (buf : List UInt8) : Via io s (writeHere io s f buf).2 :=
  (vfsWrite_via s f buf (s.file f).fPos).setPos f _

theorem sysRead_via (s : Sys σ) (k : Nat) (fd : Int) (count : Nat) : Via io s (sysRead io s k fd count).2 := by
  unfold sysRead
  split
  · exact .refl
  · rename_i f _
    cases hop : io.read (s.file f).fOp with
    | none => exact .refl
    | some op => exact (Via.refl.read f count _ hop).setPos f _

theorem sysWrite_via (s : Sys σ) (k : Nat) (fd : Int) (buf : List UInt8) : Via io s (sysWrite io s k fd buf).2 := by
  unfold sysWrite
  split
  · exact .refl
  · rename_i f _
    split
    · exact Via.refl.print buf
    · cases hop : io.write (s.file f).fOp with
      | none => exact .refl
      | some op => exact (Via.refl.write f buf _ hop).setPos f _

theorem sysPread_via (s : Sys σ) (k : Nat) (fd : Int) (count : Nat) (offset : Int) :
    Via io s (sysPread io s k fd count offset).2 := by
  unfold sysPread
  split
  · exact .refl
  · split
    · exact .refl
    · exact vfsRead_via s _ count _

theorem sysPwrite_via (s : Sys σ) (k : Nat) (fd : Int) (buf : List UInt8) (offset : Int) :
    Via io s (sysPwrite io s k fd buf offset).2 := by
  unfold sysPwrite
  split
  · exact .refl
  · split
    · exact .refl
    · exact vfsWrite_via s _ buf _

theorem readvFrom_via (f : Nat) : ∀ (ns : List Nat) (total : List UInt8) (s : Sys σ), Via io s (readvFrom io f ns total s).2
  | [], _, _ => .refl
  | n :: ns, total, s => by
    unfold readvFrom
    split
    · exact readvFrom_via f ns total s
    · have hr : Via io s (readHere io s f n).2 := readHere_via s f n
      generalize readHere io s f n = r at hr ⊢
      obtain ⟨e | l, t⟩ := r
      · exact hr
      · dsimp only
        split
        · exact hr
        · exact Via.trans hr (readvFrom_via f ns _ t)

theorem sysReadv_via (s : Sys σ) (k : Nat) (fd : Int) (iov : List Nat) : Via io s (sysReadv io s k fd iov).2 := by
  unfold sysReadv
  split
  · exact .refl
  · split
    · exact .refl
    · exact readvFrom_via _ iov [] s

theorem writevFrom_via (f : Nat) : ∀ (bs : List (List UInt8)) (total : Int) (s : Sys σ),
    Via io s (writevFrom io f bs total s).2
  | [], _, _ => .refl
  | b :: bs, total, s => by
    unfold writevFrom
    split
    · exact writevFrom_via f bs total s
    · have hw : Via io s (writeHere io s f b).2 := writeHere_via s f b
      generalize writeHere io s f b = r at hw ⊢
      obtain ⟨e | n, t⟩ := r
      · exact hw
      · exact Via.trans hw (writevFrom_via f bs _ t)

theorem sysWritev_via (s : Sys σ) (k : Nat) (fd : Int) (iov : List (List UInt8)) : Via io s (sysWritev io s k fd iov).2 := by
  unfold sysWritev
  split
  · exact .refl
  · split
    · exact .refl
    · exact writevFrom_via _ iov 0 s

theorem sendChunk_via (outFd : Int) (out : Nat) : ∀ (fuel : Nat) (rest : List UInt8) (s : Sys σ),
    Via io s (sendChunk io outFd out fuel rest s).2
  | 0, _, _ => .refl
  | fuel + 1, rest, s => by
    unfold sendChunk
    split
    · exact .refl
    · split
      · exact Via.refl.print rest
      · have hw : Via io s (writeHere io s out rest).2 := writeHere_via s out rest
        generalize writeHere io s out rest = r at hw ⊢
        obtain ⟨e | n, t⟩ := r
        · exact hw
        · dsimp only
          split
          · exact hw
          · exact Via.trans hw (sendChunk_via outFd out fuel _ t)

theorem sendLoop_via (outFd : Int) (out inp : Nat) : ∀ (fuel count pos total : Nat) (s : Sys σ),
    Via io s (sendLoop io outFd out inp fuel count pos total s).2.2
  | 0, _, _, _, _ => .refl
  | fuel + 1, count, pos, total, s => by
    unfold sendLoop
    split
    · have hr : Via io s (vfsRead io s inp (min (count - total) bounce) pos).2.2 := vfsRead_via s inp _ pos
      generalize vfsRead io s inp (min (count - total) bounce) pos = r at hr ⊢
      obtain ⟨e | l, p, t⟩ := r
      · exact hr
      · dsimp only
        split
        · exact hr
        · have hc : Via io s (sendChunk io outFd out l.length l t).2 := Via.trans hr (sendChunk_via outFd out l.length l t)
          split
          · exact hc
          · exact hc.trans (sendLoop_via outFd out inp fuel count p _ _)
    · exact .refl

theorem sysSendfile_via (s : Sys σ) (k : Nat) (outFd inFd : Int) (offset : Option Nat) (count : Nat) :
    Via io s (sysSendfile io s k outFd inFd offset count).2.2 := by
  unfold sysSendfile
  split
  · cases offset with
    | none => exact (sendLoop_via outFd _ _ _ _ _ 0 s).setPos _ _
    | some p => exact sendLoop_via outFd _ _ _ _ _ 0 s
  · exact .refl

theorem mmapPages_via (f : Nat) : ∀ (n offset mem : Nat) (l : List (List UInt8)) (s : Sys σ),
    Via io s (mmapPages io f n offset mem l s).2.2
  | 0, _, _, _, _ => .refl
  | _ + 1, _, 0, _, _ => .refl
  | n + 1, offset, mem + 1, _, s => (vfsRead_via s f pageSize offset).trans (mmapPages_via f n _ mem _ _)

theorem sysMmap_via (s : Sys σ) (k : Nat) (fd : Int) (length offset : Nat) (vaddr : Except Errno Nat) (mem : Nat) :
    Via io s (sysMmap io s k fd length offset vaddr mem).2.2 := by
  unfold sysMmap
  split
  · exact .refl
  · split
    · exact .refl
    · split
      · exact .refl
      · split
        · exact .refl
        · split
          · exact .refl
          · exact mmapPages_via _ _ offset mem [] s

theorem sysLseek_via (s : Sys σ) (k : Nat) (fd : Int) (offset : Nat) (whence : Whence) :
    Via io s (sysLseek io s k fd offset whence).2 := by
  unfold sysLseek
  split
  · exact .refl
  · split
    · exact .refl
    · exact Via.refl.setPos _ _

/-! ## Runs -/

/-- The calls, and for each file the flags `filp_open` got. -/
structure World (σ : Type) where
  sys : Sys σ
  opened : Nat → Option Nat

def oAccmode : Nat := 3

/-- `f_mode`, by `O_ACCMODE`. -/
def modeOf (flags : Nat) : Nat :=
  match flags &&& oAccmode with
  | 0 => fmodeRead
  | 1 => fmodeWrite
  | _ => fmodeRead ||| fmodeWrite

/-- What a task may call, and `other` for what the rest of the kernel does. -/
inductive Label (ε : Type) where
  | opn (k : Nat) (new : Option Nat) (flags : Nat) (inode : Option Nat) (fOp privateData : Nat)
  | pipe (k : Nat) (pi rf wf : Option Nat) (flags readOp writeOp : Nat)
  | table (l : Files.Label)
  | read (k : Nat) (fd : Int) (count : Nat)
  | write (k : Nat) (fd : Int) (buf : List UInt8)
  | pread (k : Nat) (fd : Int) (count : Nat) (offset : Int)
  | pwrite (k : Nat) (fd : Int) (buf : List UInt8) (offset : Int)
  | readv (k : Nat) (fd : Int) (iov : List Nat)
  | writev (k : Nat) (fd : Int) (iov : List (List UInt8))
  | sendfile (k : Nat) (outFd inFd : Int) (offset : Option Nat) (count : Nat)
  | ftruncate (k : Nat) (fd length : Int)
  | mmap (k : Nat) (fd : Int) (length offset : Nat) (vaddr : Except Errno Nat) (mem : Nat)
  | lseek (k : Nat) (fd : Int) (offset : Nat) (whence : Whence)
  | setfl (k : Nat) (fd : Int) (arg : Nat)
  | other (e : ε)

namespace World

variable (w : World σ)

def withSys (s : Sys σ) : World σ := { w with sys := s }

/-- A file is made, in place of the one that was there. -/
def make (f : Option Nat) (data : FileT) (flags : Option Nat) : World σ :=
  match f with
  | none => w
  | some f =>
    { sys := { w.sys with file := Function.update w.sys.file f data }, opened := Function.update w.opened f flags }

def withFs (fs : Files.State) : World σ := { w with sys := { w.sys with fs := fs } }

end World

/-- The calls that make files have labels of their own. -/
def isTable : Files.Label → Bool
  | .opn _ _ | .pipe _ _ _ _ => false
  | _ => true

variable {ε : Type}

def step (io : Fops σ) (env : σ → ε → Option σ) (w : World σ) : Label ε → Option (World σ)
  | .opn k new flags inode fOp privateData =>
    (Files.fileStep w.sys.fs (.opn k new)).map fun fs =>
      (w.make new ⟨inode, fOp, privateData, modeOf flags, flags, 0⟩ (some flags)).withFs fs
  | .pipe k pi rf wf flags readOp writeOp =>
    (Files.fileStep w.sys.fs (.pipe k pi rf wf)).map fun fs =>
      ((w.make rf ⟨none, readOp, pi.getD 0, fmodeRead, flags, 0⟩ none).make wf
        ⟨none, writeOp, pi.getD 0, fmodeWrite, 1 ||| flags, 0⟩ none).withFs fs
  | .table l => if isTable l then (Files.fileStep w.sys.fs l).map w.withFs else none
  | .read k fd count => some (w.withSys (sysRead io w.sys k fd count).2)
  | .write k fd buf => some (w.withSys (sysWrite io w.sys k fd buf).2)
  | .pread k fd count offset => some (w.withSys (sysPread io w.sys k fd count offset).2)
  | .pwrite k fd buf offset => some (w.withSys (sysPwrite io w.sys k fd buf offset).2)
  | .readv k fd iov => some (w.withSys (sysReadv io w.sys k fd iov).2)
  | .writev k fd iov => some (w.withSys (sysWritev io w.sys k fd iov).2)
  | .sendfile k outFd inFd offset count => some (w.withSys (sysSendfile io w.sys k outFd inFd offset count).2.2)
  | .ftruncate k fd length => some (w.withSys (sysFtruncate io w.sys k fd length).2)
  | .mmap k fd length offset vaddr mem => some (w.withSys (sysMmap io w.sys k fd length offset vaddr mem).2.2)
  | .lseek k fd offset whence => some (w.withSys (sysLseek io w.sys k fd offset whence).2)
  | .setfl k fd arg => some (w.withSys (sysSetfl w.sys k fd arg).2)
  | .other e => (env w.sys.dev e).map fun dev => w.withSys { w.sys with dev := dev }

/-- The first task, with the files' state as `start` says. -/
def machine (io : Fops σ) (env : σ → ε → Option σ) (start : σ → Prop) : Machine (World σ) (Label ε) where
  init w := Files.fileMachine.init w.sys.fs ∧ (∀ f, w.opened f = none) ∧ start w.sys.dev
  step := step io env

/-! ## What a file was opened with -/

/-- **`f_mode` is what the flags of the open say.** -/
def ModesSay (w : World σ) : Prop := ∀ f, ∀ flags ∈ w.opened f, (w.sys.file f).fMode = modeOf flags

variable {w w' : World σ} {env : σ → ε → Option σ} {a : Label ε}

theorem ModesSay.via (h : ModesSay w) (hv : Via io w.sys t) : ModesSay (w.withSys t) := by
  intro f flags hf
  show (t.file f).fMode = _
  rw [hv.file f]
  exact h f flags hf

theorem ModesSay.make (h : ModesSay w) (f : Option Nat) {data : FileT} {flags : Option Nat}
    (hd : ∀ x ∈ flags, data.fMode = modeOf x) : ModesSay (w.make f data flags) := by
  cases f with
  | none => exact h
  | some f =>
    intro g x hx
    by_cases hg : g = f
    · subst hg
      simp only [World.make, Function.update_self] at hx ⊢
      exact hd x hx
    · simp only [World.make, Function.update_of_ne hg] at hx ⊢
      exact h g x hx

theorem ModesSay.step (h : ModesSay w) (hs : step io env w a = some w') : ModesSay w' := by
  cases a with
  | opn k new flags inode fOp privateData =>
    obtain ⟨fs, -, rfl⟩ := Option.map_eq_some_iff.1 hs
    exact h.make new fun x hx => by cases hx; rfl
  | pipe k pi rf wf flags readOp writeOp =>
    obtain ⟨fs, -, rfl⟩ := Option.map_eq_some_iff.1 hs
    exact (h.make rf fun x hx => absurd hx (Option.not_mem_none x)).make wf fun x hx => absurd hx (Option.not_mem_none x)
  | table l =>
    simp only [Transfer.step] at hs
    split at hs
    · obtain ⟨fs, -, rfl⟩ := Option.map_eq_some_iff.1 hs
      exact h
    · nomatch hs
  | read k fd count => cases hs; exact h.via (sysRead_via _ _ _ _)
  | write k fd buf => cases hs; exact h.via (sysWrite_via _ _ _ _)
  | pread k fd count offset => cases hs; exact h.via (sysPread_via _ _ _ _ _)
  | pwrite k fd buf offset => cases hs; exact h.via (sysPwrite_via _ _ _ _ _)
  | readv k fd iov => cases hs; exact h.via (sysReadv_via _ _ _ _)
  | writev k fd iov => cases hs; exact h.via (sysWritev_via _ _ _ _)
  | sendfile k outFd inFd offset count => cases hs; exact h.via (sysSendfile_via _ _ _ _ _ _)
  | mmap k fd length offset vaddr mem => cases hs; exact h.via (sysMmap_via _ _ _ _ _ _ _)
  | lseek k fd offset whence => cases hs; exact h.via (sysLseek_via _ _ _ _ _)
  | ftruncate k fd length =>
    cases hs
    unfold sysFtruncate
    split
    · exact h
    · split
      · exact h
      · split
        · exact h
        · split <;> exact h
  | setfl k fd arg =>
    cases hs
    unfold sysSetfl
    split
    · exact h
    · split
      · exact h
      · rename_i f _
        intro g x hx
        by_cases hg : g = f
        · subst hg
          simp only [World.withSys, Function.update_self]
          exact h g x hx
        · simp only [World.withSys, Function.update_of_ne hg]
          exact h g x hx
  | other e =>
    obtain ⟨dev, -, rfl⟩ := Option.map_eq_some_iff.1 hs
    exact h

/-- **What the operations, a change of `i_size` and the rest of the kernel keep of the files' state, a step keeps.** -/
theorem step_dev {P : σ → Prop}
    (hread : ∀ o op, io.read o = some op → ∀ file dev count pos, P dev → P (op file dev count pos).2.2)
    (hwrite : ∀ o op, io.write o = some op → ∀ file dev buf pos, P dev → P (op file dev buf pos).2.2)
    (hsize : ∀ dev i n, P dev → P (io.setISize dev i n)) (henv : ∀ dev e dev', P dev → env dev e = some dev' → P dev')
    (h : P w.sys.dev) (hs : step io env w a = some w') : P w'.sys.dev := by
  have hvia : ∀ {t : Sys σ}, Via io w.sys t → P t.dev := fun hv => hv.dev hread hwrite h
  have hmake : ∀ (v : World σ) (f : Option Nat) (data : FileT) (flags : Option Nat),
      (v.make f data flags).sys.dev = v.sys.dev := fun v f data flags => by cases f <;> rfl
  cases a with
  | opn k new flags inode fOp privateData =>
    obtain ⟨fs, -, rfl⟩ := Option.map_eq_some_iff.1 hs
    show P (World.make _ _ _ _).sys.dev
    rwa [hmake]
  | pipe k pi rf wf flags readOp writeOp =>
    obtain ⟨fs, -, rfl⟩ := Option.map_eq_some_iff.1 hs
    show P (World.make _ _ _ _).sys.dev
    rwa [hmake, hmake]
  | table l =>
    simp only [Transfer.step] at hs
    split at hs
    · obtain ⟨fs, -, rfl⟩ := Option.map_eq_some_iff.1 hs
      exact h
    · nomatch hs
  | read k fd count => cases hs; exact hvia (sysRead_via _ _ _ _)
  | write k fd buf => cases hs; exact hvia (sysWrite_via _ _ _ _)
  | pread k fd count offset => cases hs; exact hvia (sysPread_via _ _ _ _ _)
  | pwrite k fd buf offset => cases hs; exact hvia (sysPwrite_via _ _ _ _ _)
  | readv k fd iov => cases hs; exact hvia (sysReadv_via _ _ _ _)
  | writev k fd iov => cases hs; exact hvia (sysWritev_via _ _ _ _)
  | sendfile k outFd inFd offset count => cases hs; exact hvia (sysSendfile_via _ _ _ _ _ _)
  | mmap k fd length offset vaddr mem => cases hs; exact hvia (sysMmap_via _ _ _ _ _ _ _)
  | lseek k fd offset whence => cases hs; exact hvia (sysLseek_via _ _ _ _ _)
  | ftruncate k fd length =>
    cases hs
    unfold sysFtruncate
    split
    · exact h
    · split
      · exact h
      · split
        · exact h
        · split
          · exact h
          · exact hsize _ _ _ h
  | setfl k fd arg =>
    cases hs
    unfold sysSetfl
    split
    · exact h
    · split <;> exact h
  | other e =>
    obtain ⟨dev, hd, rfl⟩ := Option.map_eq_some_iff.1 hs
    exact henv _ _ _ h hd

end Transfer
end Pico
