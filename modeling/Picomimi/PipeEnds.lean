import Picomimi.FilesRun
import Picomimi.Pipe
/-!
# PipeEnds — the counts of a pipe's ends and its descriptors

`do_pipe` sets both counts to 1, and only the release hooks lower them.  `fput` does not call the hooks (the call is
commented out), `filp_close` does: a count goes down when close-on-exec takes the end's descriptor, and never when
`close`, `dup2` or an exit takes the last one.
-/
namespace Pico
namespace Files

open Lib

def PipeCounts.get (c : PipeCounts) : PipeEnd → Int
  | .read => c.readers
  | .write => c.writers

/-- The files of all descriptors. -/
def State.slotFiles (s : State) : List Nat := gather s.slotsOf s.ntasks

/-- A descriptor's file `f` is the end `e` of the pipe `p`. -/
def PipeFile (s : State) (f : Nat) (e : PipeEnd) (p : Nat) : Prop := f ∈ s.slotFiles ∧ s.kind f = some (e, p)

/-- A descriptor refers to the end. -/
def Refers (s : State) (e : PipeEnd) (p : Nat) : Prop := ∃ f, PipeFile s f e p

/-- **The counts track the descriptors**: a descriptor's pipe is there, a count is zero exactly when no descriptor refers
to its end, and so an empty pipe without write descriptors reads as end of file, and one without read descriptors fails
with `EPIPE`. -/
structure EndsTracked (s : State) : Prop where
  there : ∀ e p, Refers s e p → (s.pipes p).isSome
  zero : ∀ p, ∀ c ∈ s.pipes p, ∀ e, c.get e = 0 ↔ ¬Refers s e p
  eof : ∀ p, ∀ c ∈ s.pipes p, ¬Refers s .write p → ∀ pi : Pipe.PipeInode, (pi.writers : Int) = c.writers →
    pi.buf.count = 0 → ∀ count nonblock, Pipe.pipeReadTurn pi count nonblock = (pi, .ret (.read [] 0))
  epipe : ∀ p, ∀ c ∈ s.pipes p, ¬Refers s .read p → ∀ pi : Pipe.PipeInode, (pi.readers : Int) = c.readers →
    ∀ buf written nonblock, Pipe.pipeWriteTurn pi buf written nonblock =
      (pi, 0, .ret (.write buf (Pipe.shortRet written Pipe.epipe) true))

/-- **What keeps the counts right**: an end with a descriptor counts 1, an end that counts has a descriptor, all its
descriptors share one file, and a call in progress holds no other. -/
structure EndsInv (s : State) : Prop where
  live : ∀ f e p, PipeFile s f e p → ∃ c, s.pipes p = some c ∧ c.get e = 1
  held : ∀ p c e, s.pipes p = some c → c.get e ≠ 0 → Refers s e p
  uniq : ∀ f g e p, PipeFile s f e p → PipeFile s g e p → f = g
  flight : ∀ f ∈ s.inflight, s.kind f ≠ none → f ∈ s.slotFiles

variable {s s' : State} {t : FilesStruct} {k : Nat} {i fd : Int} {en : FdEntry} {f g : Nat} {loc : List Nat}

theorem EndsInv.tracked (h : EndsInv s) : EndsTracked s := by
  have hzero : ∀ p, ∀ c ∈ s.pipes p, ∀ e, c.get e = 0 ↔ ¬Refers s e p := by
    intro p c hc e
    constructor
    · rintro h0 ⟨f, hf⟩
      obtain ⟨c', hc', h1⟩ := h.live f e p hf
      rw [hc] at hc'
      cases hc'
      rw [h0] at h1
      cases h1
    · intro hno
      by_contra h0
      exact hno (h.held p c e hc h0)
  refine ⟨fun e p ⟨f, hf⟩ => ?_, hzero, fun p c hc hno pi hw hcount count nonblock => ?_,
    fun p c hc hno pi hr buf written nonblock => ?_⟩
  · obtain ⟨c, hc, -⟩ := h.live f e p hf
    rw [hc]
    rfl
  · have hw0 : pi.writers = 0 := by
      have : c.writers = 0 := (hzero p c hc .write).2 hno
      omega
    unfold Pipe.pipeReadTurn
    rw [if_neg (by omega), if_pos hw0]
  · have hr0 : pi.readers = 0 := by
      have : c.readers = 0 := (hzero p c hc .read).2 hno
      omega
    unfold Pipe.pipeWriteTurn
    rw [if_pos hr0]

/-! ## How often a file has a descriptor -/

/-- The descriptors of a file. -/
def State.cnt (s : State) (f : Nat) : Nat := s.slotFiles.count f

def one (o : Option Nat) (f : Nat) : Nat := if o = some f then 1 else 0

theorem count_toList (o : Option Nat) (f : Nat) : o.toList.count f = one o f := by
  unfold one
  cases o with
  | none => rfl
  | some g =>
    rw [Option.toList_some, List.count_singleton]
    by_cases hg : g = f
    · simp [hg]
    · simp [hg]

theorem cnt_pos : 0 < s.cnt f ↔ f ∈ s.slotFiles := List.count_pos_iff

/-- **A store to an entry of a table.** -/
theorem cnt_setSlot (hb : ∀ k, s.ntasks ≤ k → s.files k = none) (hk : (s.files k).isSome) (hi : InTable i)
    (en : FdEntry) (f : Nat) :
    one (s.entry k i).file f + (s.setSlot k i en).cnt f = one en.file f + s.cnt f := by
  have hp := (refs_setSlot (e := en) hb hk hi).count_eq f
  unfold State.refs at hp
  simp only [List.count_append, count_toList, setSlot_inflight] at hp
  unfold State.cnt State.slotFiles
  omega

/-- The frame of a step that only moves descriptors. -/
structure Frame (s s' : State) : Prop where
  kind : s'.kind = s.kind
  pipes : s'.pipes = s.pipes
  inflight : s'.inflight = s.inflight

theorem Frame.trans {s₁ s₂ s₃ : State} (h : Frame s₁ s₂) (h' : Frame s₂ s₃) : Frame s₁ s₃ :=
  ⟨h'.kind.trans h.kind, h'.pipes.trans h.pipes, h'.inflight.trans h.inflight⟩

theorem frame_incFile (s : State) (f : Nat) : Frame s (s.incFile f) := ⟨rfl, rfl, rfl⟩

theorem frame_fput (s : State) (f : Nat) : Frame s (fput s f) := ⟨rfl, rfl, rfl⟩

theorem frame_setSlot (s : State) (k : Nat) (i : Int) (en : FdEntry) : Frame s (s.setSlot k i en) := by
  unfold State.setSlot
  split <;> exact ⟨rfl, rfl, rfl⟩

theorem frame_fdInstall (s : State) (k : Nat) (i : Int) (f : Nat) : Frame s (fdInstall s k i f) := by
  unfold fdInstall
  split
  · exact frame_setSlot _ _ _ _
  · exact ⟨rfl, rfl, rfl⟩

theorem frame_doClose (s : State) (k : Nat) (fd : Int) : Frame s (doClose s k fd).2 := by
  unfold doClose
  split
  · split
    · exact frame_setSlot _ _ _ _
    · exact (frame_setSlot s k fd .empty).trans (frame_fput _ _)
  · exact ⟨rfl, rfl, rfl⟩

theorem getUnusedFd_frame {o : Option Nat} (hg : getUnusedFd s k = (o, s')) : Frame s s' := by
  unfold getUnusedFd at hg
  split at hg
  · cases hg
    exact ⟨rfl, rfl, rfl⟩
  · split at hg
    · cases hg
      exact ⟨rfl, rfl, rfl⟩
    · split at hg <;> cases hg <;> exact ⟨rfl, rfl, rfl⟩

/-- The files that keep their number of descriptors when all references do. -/
theorem cnt_of_perm (h : s'.refs.Perm s.refs) (hi : s'.inflight = s.inflight) (f : Nat) : s'.cnt f = s.cnt f := by
  have hc := h.count_eq f
  unfold State.refs at hc
  rw [List.count_append, List.count_append, hi] at hc
  unfold State.cnt State.slotFiles
  omega

theorem Inv.getUnusedFd_cnt (h : Inv s loc) {fd : Nat} (hg : Files.getUnusedFd s k = (some fd, s')) (f : Nat) :
    s'.cnt f = s.cnt f :=
  cnt_of_perm (h.getUnusedFd hg).2.2.2.2.2 (getUnusedFd_frame hg).inflight f

/-- **A file installed in an empty entry** gains a descriptor. -/
theorem cnt_fdInstall (hb : ∀ k, s.ntasks ≤ k → s.files k = none) (hk : (s.files k).isSome) (hi : InTable fd)
    (he : (s.entry k fd).file = none) (f g : Nat) : (fdInstall s k fd f).cnt g = one (some f) g + s.cnt g := by
  unfold fdInstall
  rw [if_pos hi]
  have h := cnt_setSlot hb hk hi { s.entry k fd with file := some f } g
  rw [he] at h
  simpa [one] using h

/-- **A descriptor closed** is one fewer for its file. -/
theorem cnt_doClose (hb : ∀ k, s.ntasks ≤ k → s.files k = none) (hk : (s.files k).isSome) (g : Nat) :
    one (s.lookup k fd) g + (doClose s k fd).2.cnt g = s.cnt g := by
  unfold doClose State.lookup
  by_cases hi : InTable fd
  · rw [if_pos hi, if_pos hi]
    have h := cnt_setSlot hb hk hi .empty g
    have h0 : one FdEntry.empty.file g = 0 := rfl
    rw [h0, Nat.zero_add] at h
    cases hf : (s.entry k fd).file with
    | none =>
      rw [hf] at h
      exact h
    | some f =>
      rw [hf] at h
      exact h
  · rw [if_neg hi, if_neg hi]
    exact Nat.zero_add _

theorem one_some (f g : Nat) : one (some f) g = if f = g then 1 else 0 := by
  unfold one
  by_cases h : f = g
  · rw [if_pos h, if_pos (congrArg some h)]
  · rw [if_neg h, if_neg fun hc => h (Option.some.inj hc)]

theorem mem_slotFiles_of_lookup (hb : ∀ k, s.ntasks ≤ k → s.files k = none) (h : s.lookup k fd = some f) :
    f ∈ s.slotFiles := by
  obtain ⟨hi, he⟩ := lookup_eq_some h
  cases ht : s.files k with
  | none =>
    unfold State.entry at he
    rw [ht] at he
    cases he
  | some t =>
    have hk : k < s.ntasks := by
      by_contra hc
      rw [hb k (Nat.le_of_not_lt hc)] at ht
      cases ht
    rw [entry_eq ht] at he
    exact mem_gather.2 ⟨k, hk, slotsOf_eq ht ▸ mem_slots.2 ⟨fd, hi, he⟩⟩

/-! ## The calls that move descriptors -/

/-- **A call that only moves descriptors** keeps the ends right when every pipe's file with a descriptor still has one, and
no pipe's file gets its first. -/
theorem EndsInv.moved (h : EndsInv s) (hf : Frame s s') (hlast : ∀ f ∈ s.slotFiles, s.kind f ≠ none → 0 < s'.cnt f)
    (hfirst : ∀ f, s.kind f ≠ none → 0 < s'.cnt f → f ∈ s.slotFiles) : EndsInv s' := by
  have hiff : ∀ f e p, PipeFile s' f e p ↔ PipeFile s f e p := by
    intro f e p
    unfold PipeFile
    rw [hf.kind]
    refine and_congr_left fun hk => ?_
    have hk' : s.kind f ≠ none := by
      rw [hk]
      exact Option.some_ne_none _
    exact ⟨fun hm => hfirst f hk' (cnt_pos.2 hm), fun hm => cnt_pos.1 (hlast f hm hk')⟩
  refine ⟨fun f e p hpf => ?_, fun p c e hc h0 => ?_, fun f g e p h1 h2 => ?_, fun f hm hk => ?_⟩
  · rw [hf.pipes]
    exact h.live f e p ((hiff f e p).1 hpf)
  · rw [hf.pipes] at hc
    obtain ⟨f, hpf⟩ := h.held p c e hc h0
    exact ⟨f, (hiff f e p).2 hpf⟩
  · exact h.uniq f g e p ((hiff f e p).1 h1) ((hiff g e p).1 h2)
  · rw [hf.inflight] at hm
    rw [hf.kind] at hk
    exact cnt_pos.1 (hlast f (h.flight f hm hk) hk)

/-- The same number of descriptors for every file. -/
theorem EndsInv.same (h : EndsInv s) (hf : Frame s s') (hc : ∀ f, s'.cnt f = s.cnt f) : EndsInv s' :=
  h.moved hf (fun f hm _ => by rw [hc]; exact cnt_pos.2 hm) fun f _ hp => cnt_pos.1 (hc f ▸ hp)

/-- **A descriptor more** for a file that has one. -/
theorem EndsInv.gained (h : EndsInv s) (hf : Frame s s') (hmem : s.kind f ≠ none → f ∈ s.slotFiles)
    (hc : ∀ g, s'.cnt g = one (some f) g + s.cnt g) : EndsInv s' := by
  refine h.moved hf (fun g hm _ => ?_) fun g hk hp => ?_
  · rw [hc]
    exact Nat.lt_of_lt_of_le (cnt_pos.2 hm) (Nat.le_add_left _ _)
  · rw [hc, one_some] at hp
    by_cases hfg : f = g
    · subst hfg
      exact hmem hk
    · rw [if_neg hfg, Nat.zero_add] at hp
      exact cnt_pos.1 hp

/-- `fd`'s file keeps a descriptor if it is a pipe's. -/
def Spare (s : State) (k : Nat) (fd : Int) : Prop := ∀ f ∈ s.lookup k fd, s.kind f ≠ none → 2 ≤ s.cnt f

instance (s : State) (k : Nat) (fd : Int) : Decidable (Spare s k fd) := inferInstanceAs (Decidable (∀ _ ∈ _, _))

theorem EndsInv.doClose (h : EndsInv s) (hi : Inv s []) (hk : (s.files k).isSome) (hlast : Spare s k fd) :
    EndsInv (doClose s k fd).2 := by
  have hcnt : ∀ g, one (s.lookup k fd) g + (Files.doClose s k fd).2.cnt g = s.cnt g := cnt_doClose hi.bound hk
  refine h.moved (frame_doClose s k fd) (fun f hm hkd => ?_) fun f _ hp => cnt_pos.1 (by have := hcnt f; omega)
  have hc := hcnt f
  have hpos := cnt_pos.2 hm
  by_cases hl : s.lookup k fd = some f
  · have h2 := hlast f hl hkd
    rw [hl, one_some, if_pos rfl] at hc
    omega
  · rw [one, if_neg hl] at hc
    omega

/-- A file that is new has no descriptor and is in no call. -/
theorem not_mem_of_newFile (h : Inv s []) (hf : s.NewFile f) : f ∉ s.slotFiles ∧ f ∉ s.inflight :=
  not_or.1 fun hc => h.not_mem_of_new hf (show f ∈ s.slotFiles ++ s.inflight from List.mem_append.2 hc)

/-- **What a call may do to files without descriptors** does not matter. -/
theorem EndsInv.fresh (h : EndsInv s) (hkind : ∀ f, f ∈ s.slotFiles ∨ f ∈ s.inflight → s'.kind f = s.kind f)
    (hp : s'.pipes = s.pipes) (hin : s'.inflight = s.inflight) (hc : ∀ f, s'.cnt f = s.cnt f) : EndsInv s' := by
  have hmem : ∀ f, f ∈ s'.slotFiles ↔ f ∈ s.slotFiles := fun f => by rw [← cnt_pos, ← cnt_pos, hc]
  have hiff : ∀ f e p, PipeFile s' f e p ↔ PipeFile s f e p := by
    intro f e p
    unfold PipeFile
    rw [hmem]
    exact and_congr_right fun hm => by rw [hkind f (.inl hm)]
  refine ⟨fun f e p hpf => ?_, fun p c e hcp h0 => ?_, fun f g e p h1 h2 => ?_, fun f hm hk => ?_⟩
  · rw [hp]
    exact h.live f e p ((hiff f e p).1 hpf)
  · rw [hp] at hcp
    obtain ⟨f, hpf⟩ := h.held p c e hcp h0
    exact ⟨f, (hiff f e p).2 hpf⟩
  · exact h.uniq f g e p ((hiff f e p).1 h1) ((hiff g e p).1 h2)
  · rw [hin] at hm
    rw [hkind f (.inr hm)] at hk
    exact (hmem f).2 (h.flight f hm hk)

theorem EndsInv.sysOpen (h : EndsInv s) (hi : Inv s []) {new : Option Nat} (hnew : ∀ f ∈ new, s.NewFile f) :
    EndsInv (sysOpen s k new).2 := by
  cases new with
  | none => exact h
  | some f =>
    have hf := hnew f rfl
    obtain ⟨hslot, hfl⟩ := not_mem_of_newFile hi hf
    have hself : (s.newFile f none).kind f = none := Function.update_self _ _ _
    have hother : ∀ g, g ∈ s.slotFiles ∨ g ∈ s.inflight → (s.newFile f none).kind g = s.kind g := by
      intro g hg
      refine Function.update_of_ne ?_ _ _
      rintro rfl
      exact hg.elim hslot hfl
    have h1 : EndsInv (s.newFile f none) := h.fresh hother rfl rfl fun _ => rfl
    have hi1 := hi.newFile hf none
    unfold Files.sysOpen
    dsimp only
    rcases hg : Files.getUnusedFd (s.newFile f none) k with ⟨_ | fd, s₁⟩
    · rw [getUnusedFd_none hg]
      have hrel : Files.filpClose (s.newFile f none) f = (s.newFile f none).kfreeFile f := by
        unfold Files.filpClose release
        rw [hself]
      dsimp only
      rw [hrel]
      exact h1.same ⟨rfl, rfl, rfl⟩ fun _ => rfl
    · obtain ⟨h2, hin, he, hk, -, -⟩ := hi1.getUnusedFd hg
      refine h1.gained ((getUnusedFd_frame hg).trans (frame_fdInstall s₁ k fd f)) (fun hc => absurd hself hc) fun g => ?_
      rw [cnt_fdInstall h2.bound hk hin he, hi1.getUnusedFd_cnt hg]

theorem EndsInv.sysDup (h : EndsInv s) (hi : Inv s []) : EndsInv (sysDup s k fd).2 := by
  unfold Files.sysDup
  rw [fget_eq]
  cases hl : s.lookup k fd with
  | none => exact h
  | some f =>
    have h1 := hi.incFile (hi.lookup_mem hl)
    have hmem := mem_slotFiles_of_lookup hi.bound hl
    dsimp only
    rcases hg : Files.getUnusedFd (s.incFile f) k with ⟨_ | newfd, s₁⟩
    · rw [getUnusedFd_none hg]
      exact h.same ⟨rfl, rfl, rfl⟩ fun _ => rfl
    · obtain ⟨h2, hin, he, hk, -, -⟩ := h1.getUnusedFd hg
      have h0 := frame_incFile s f
      refine h.gained ((h0.trans (getUnusedFd_frame hg)).trans (frame_fdInstall s₁ k newfd f)) (fun _ => hmem) fun g => ?_
      rw [cnt_fdInstall h2.bound hk hin he, h1.getUnusedFd_cnt hg]
      rfl

/-- `dup2` leaves the file it takes `newfd` from a descriptor, if it is a pipe's. -/
def Dup2Spares (s : State) (k : Nat) (oldfd newfd : Int) : Prop :=
  oldfd = newfd ∨ s.lookup k oldfd = none ∨ Spare s k newfd

instance (s : State) (k : Nat) (oldfd newfd : Int) : Decidable (Dup2Spares s k oldfd newfd) :=
  inferInstanceAs (Decidable (_ ∨ _ ∨ _))

theorem closeExisting_eq (hl : s.lookup k fd = some f) :
    closeExisting s k fd = (doClose (fput (s.incFile f) f) k fd).2 := by
  unfold closeExisting
  rw [fget_eq, hl]

theorem frame_closeExisting (s : State) (k : Nat) (fd : Int) : Frame s (closeExisting s k fd) := by
  unfold closeExisting
  rw [fget_eq]
  cases s.lookup k fd with
  | none => exact ⟨rfl, rfl, rfl⟩
  | some f =>
    have h0 := (frame_incFile s f).trans (frame_fput (s.incFile f) f)
    exact h0.trans (frame_doClose (fput (s.incFile f) f) k fd)

/-- "Close newfd if open" is one fewer for the file it was. -/
theorem cnt_closeExisting (hb : ∀ k, s.ntasks ≤ k → s.files k = none) (hk : (s.files k).isSome) (g : Nat) :
    one (s.lookup k fd) g + (closeExisting s k fd).cnt g = s.cnt g := by
  cases hl : s.lookup k fd with
  | none =>
    unfold closeExisting
    rw [fget_eq, hl]
    exact Nat.zero_add _
  | some f =>
    rw [closeExisting_eq hl, ← hl]
    exact cnt_doClose (s := fput (s.incFile f) f) hb hk g

theorem EndsInv.sysDup2 (h : EndsInv s) (hi : Inv s []) (hk : (s.files k).isSome) {oldfd newfd : Int}
    (hok : Dup2Ok s k oldfd newfd) (hsp : Dup2Spares s k oldfd newfd) : EndsInv (sysDup2 s k oldfd newfd).2 := by
  unfold Files.sysDup2
  rw [fget_eq]
  by_cases heq : oldfd = newfd
  · rw [if_pos heq]
    cases s.lookup k oldfd with
    | none => exact h
    | some f => exact h.same ⟨rfl, rfl, rfl⟩ fun _ => rfl
  rw [if_neg heq]
  cases hl : s.lookup k oldfd with
  | none => exact h
  | some f =>
    dsimp only
    by_cases hr : newfd < 0 ∨ maxFdsPerProcess ≤ newfd
    · rw [if_pos hr]
      exact h.same ⟨rfl, rfl, rfl⟩ fun _ => rfl
    rw [if_neg hr]
    have hin : InTable newfd := by
      rcases hok with hc | hc | hc | hc | hc
      · exact absurd hc heq
      · rw [hl] at hc
        cases hc
      · exact absurd (.inl hc) hr
      · exact absurd (.inr hc) hr
      · exact hc
    have hspare : Spare s k newfd := by
      rcases hsp with hc | hc | hc
      · exact absurd hc heq
      · rw [hl] at hc
        cases hc
      · exact hc
    have hmem := mem_slotFiles_of_lookup hi.bound hl
    have hi1 := hi.incFile (hi.lookup_mem hl)
    obtain ⟨hi2, hk2, he⟩ := hi1.closeExisting hk hin
    have hclose : ∀ g, one ((s.incFile f).lookup k newfd) g + (Files.closeExisting (s.incFile f) k newfd).cnt g =
        (s.incFile f).cnt g := cnt_closeExisting hi1.bound hk
    have hset := cnt_setSlot hi2.bound hk2 hin ⟨some f, false⟩
    rw [he] at hset
    have hframe : Frame s ((Files.closeExisting (s.incFile f) k newfd).setSlot k newfd ⟨some f, false⟩) :=
      ((frame_incFile s f).trans (frame_closeExisting _ k newfd)).trans (frame_setSlot _ _ _ _)
    have hcnt : ∀ g, one (s.lookup k newfd) g +
        ((Files.closeExisting (s.incFile f) k newfd).setSlot k newfd ⟨some f, false⟩).cnt g =
          one (some f) g + s.cnt g := by
      intro g
      have h1 := hclose g
      have h2 := hset g
      have h3 : one none g = 0 := rfl
      have h4 : (s.incFile f).lookup k newfd = s.lookup k newfd := rfl
      have h5 : (s.incFile f).cnt g = s.cnt g := rfl
      dsimp only at h2
      rw [h4, h5] at h1
      omega
    dsimp only
    refine h.moved hframe (fun g hm hkd => ?_) fun g _ hp => ?_
    · have hc := hcnt g
      have hpos := cnt_pos.2 hm
      by_cases hlg : s.lookup k newfd = some g
      · have h2 := hspare g hlg hkd
        rw [hlg, one_some, if_pos rfl] at hc
        omega
      · rw [one, if_neg hlg] at hc
        omega
    · have hc := hcnt g
      rw [one_some] at hc
      by_cases hfg : f = g
      · exact hfg ▸ hmem
      · rw [if_neg hfg] at hc
        exact cnt_pos.1 (by omega)

/-- The flags of an entry, wherever it lies. -/
theorem cnt_setFlags (hb : ∀ k, s.ntasks ≤ k → s.files k = none) (hk : (s.files k).isSome)
    (he : en.file = (s.entry k i).file) (f : Nat) : (s.setSlot k i en).cnt f = s.cnt f := by
  by_cases hi : InTable i
  · have h := cnt_setSlot hb hk hi en f
    rw [he] at h
    omega
  · obtain ⟨t, ht⟩ := Option.isSome_iff_exists.1 hk
    have hp := refs_setTable hb ht (t.set i en)
    rw [slots_set_out hi] at hp
    rw [setSlot_eq ht]
    exact cnt_of_perm ((List.perm_append_left_iff _).1 hp).symm rfl f

theorem EndsInv.setFlags (h : EndsInv s) (hb : ∀ k, s.ntasks ≤ k → s.files k = none) (hk : (s.files k).isSome)
    (he : en.file = (s.entry k i).file) : EndsInv (s.setSlot k i en) :=
  h.same (frame_setSlot s k i en) fun f => cnt_setFlags hb hk he f

theorem EndsInv.sysDup3 (h : EndsInv s) (hi : Inv s []) (hk : (s.files k).isSome) {oldfd newfd : Int} {cloexec : Bool}
    (hok : oldfd = newfd ∨ Dup2Ok s k oldfd newfd) (hsp : Dup2Spares s k oldfd newfd) :
    EndsInv (sysDup3 s k oldfd newfd cloexec).2 := by
  unfold Files.sysDup3
  by_cases heq : oldfd = newfd
  · rw [if_pos heq]
    exact h
  rw [if_neg heq]
  have hok' := hok.resolve_left heq
  have h1 := h.sysDup2 hi hk hok' hsp
  have hi1 := (hi.sysDup2 hk oldfd newfd).1 hok'
  dsimp only
  split
  · exact h1
  · split
    · exact h1.setFlags hi1.bound (isSome_sysDup2 hk oldfd newfd) rfl
    · exact h1

theorem EndsInv.sysSetfd (h : EndsInv s) (hi : Inv s []) (hk : (s.files k).isSome) {cloexec : Bool} :
    EndsInv (sysSetfd s k fd cloexec).2 := by
  unfold Files.sysSetfd
  split
  · exact h
  · split
    · exact h
    · rename_i f hf
      exact h.setFlags hi.bound hk hf.symm

theorem EndsInv.sysDupfd (h : EndsInv s) (hi : Inv s []) (hk : (s.files k).isSome) {arg : Int} {cloexec : Bool}
    (hok : DupfdOk s k fd arg) : EndsInv (sysDupfd s k fd arg cloexec).2 := by
  unfold Files.sysDupfd
  by_cases hr : fd < 0 ∨ maxFdsPerProcess ≤ fd
  · rw [if_pos hr]
    exact h
  rw [if_neg hr]
  cases hf : (s.entry k fd).file with
  | none => exact h
  | some f =>
    cases hs : dupfdSlot s k arg with
    | none => exact h
    | some i =>
      obtain ⟨hin, hlive⟩ : InTable i ∧ (s.pool.count f).isSome := by
        rcases hok with hc | hc | hc
        · exact absurd (.inl hc) hr
        · exact absurd (.inr hc) hr
        · exact hc f hf i hs
      have hempty := dupfdFrom_empty hs
      have hset := cnt_setSlot hi.bound hk hin ⟨some f, cloexec⟩
      rw [hempty] at hset
      dsimp only
      refine h.gained (f := f) ((frame_setSlot s k i ⟨some f, cloexec⟩).trans (frame_incFile _ f)) (fun hkd => ?_) fun g => ?_
      · -- a file that only a call holds is no pipe's
        rcases List.mem_append.1 (hi.bal.isSome_iff.1 hlive) with hm | hm
        · cases hm
        · exact (List.mem_append.1 hm).elim id fun hm => h.flight f hm hkd
      · have h1 := hset g
        have h0 : one none g = 0 := rfl
        rw [h0, Nat.zero_add] at h1
        exact h1

/-- **A new pipe with both ends in descriptors.** -/
theorem EndsInv.newPipe (h : EndsInv s) {p r w : Nat} (hp : s.pipes p = none) (hr : r ∉ s.slotFiles ∧ r ∉ s.inflight)
    (hw : w ∉ s.slotFiles ∧ w ∉ s.inflight) (hrw : w ≠ r)
    (hkind : s'.kind = Function.update (Function.update s.kind r (some (.read, p))) w (some (.write, p)))
    (hpipes : s'.pipes = Function.update s.pipes p (some ⟨1, 1⟩)) (hin : s'.inflight = s.inflight)
    (hc : ∀ g, s'.cnt g = one (some w) g + (one (some r) g + s.cnt g)) : EndsInv s' := by
  have hkr : s'.kind r = some (.read, p) := by rw [hkind, Function.update_of_ne hrw.symm, Function.update_self]
  have hkw : s'.kind w = some (.write, p) := by rw [hkind, Function.update_self]
  have hko : ∀ f, f ≠ r → f ≠ w → s'.kind f = s.kind f := fun f h1 h2 => by
    rw [hkind, Function.update_of_ne h2, Function.update_of_ne h1]
  have hmem : ∀ f, f ∈ s'.slotFiles ↔ f = w ∨ f = r ∨ f ∈ s.slotFiles := by
    intro f
    rw [← cnt_pos, ← cnt_pos, hc, one_some, one_some]
    by_cases h1 : w = f
    · rw [if_pos h1]
      exact iff_of_true (by omega) (.inl h1.symm)
    by_cases h2 : r = f
    · rw [if_pos h2]
      exact iff_of_true (by omega) (.inr (.inl h2.symm))
    rw [if_neg h1, if_neg h2, Nat.zero_add, Nat.zero_add]
    exact ⟨fun hm => .inr (.inr hm), fun hm => (hm.resolve_left (Ne.symm h1)).resolve_left (Ne.symm h2)⟩
  have hone : ∀ e : PipeEnd, PipeCounts.get ⟨1, 1⟩ e = 1 := fun e => by cases e <;> rfl
  -- a file of the new pipe, and a file of another
  have hnew : ∀ f e, PipeFile s' f e p ↔ (e = .read ∧ f = r) ∨ (e = .write ∧ f = w) := by
    intro f e
    unfold PipeFile
    constructor
    · rintro ⟨hm, hk⟩
      by_cases h1 : f = w
      · subst h1
        rw [hkw] at hk
        cases hk
        exact .inr ⟨rfl, rfl⟩
      by_cases h2 : f = r
      · subst h2
        rw [hkr] at hk
        cases hk
        exact .inl ⟨rfl, rfl⟩
      have hm' := (((hmem f).1 hm).resolve_left h1).resolve_left h2
      obtain ⟨c, hc', -⟩ := h.live f e p ⟨hm', (hko f h2 h1).symm.trans hk⟩
      rw [hp] at hc'
      cases hc'
    · rintro (⟨rfl, rfl⟩ | ⟨rfl, rfl⟩)
      · exact ⟨(hmem f).2 (.inr (.inl rfl)), hkr⟩
      · exact ⟨(hmem f).2 (.inl rfl), hkw⟩
  have hold : ∀ f e q, q ≠ p → (PipeFile s' f e q ↔ PipeFile s f e q) := by
    intro f e q hq
    unfold PipeFile
    by_cases h1 : f = w
    · subst h1
      rw [hkw]
      refine iff_of_false (fun hc' => ?_) fun hc' => hw.1 hc'.1
      simp only [Option.some.injEq, Prod.mk.injEq] at hc'
      exact hq hc'.2.2.symm
    by_cases h2 : f = r
    · subst h2
      rw [hkr]
      refine iff_of_false (fun hc' => ?_) fun hc' => hr.1 hc'.1
      simp only [Option.some.injEq, Prod.mk.injEq] at hc'
      exact hq hc'.2.2.symm
    rw [hmem, hko f h2 h1]
    simp only [h1, h2, false_or]
  refine ⟨fun f e q hpf => ?_, fun q c e hcq h0 => ?_, fun f g e q h1 h2 => ?_, fun f hm hk => ?_⟩
  · rw [hpipes]
    by_cases hq : q = p
    · subst hq
      exact ⟨⟨1, 1⟩, Function.update_self _ _ _, hone e⟩
    · rw [Function.update_of_ne hq]
      exact h.live f e q ((hold f e q hq).1 hpf)
  · rw [hpipes] at hcq
    by_cases hq : q = p
    · subst hq
      cases e with
      | read => exact ⟨r, (hnew r .read).2 (.inl ⟨rfl, rfl⟩)⟩
      | write => exact ⟨w, (hnew w .write).2 (.inr ⟨rfl, rfl⟩)⟩
    · rw [Function.update_of_ne hq] at hcq
      obtain ⟨f, hpf⟩ := h.held q c e hcq h0
      exact ⟨f, (hold f e q hq).2 hpf⟩
  · by_cases hq : q = p
    · subst hq
      rcases (hnew f e).1 h1 with ⟨rfl, rfl⟩ | ⟨rfl, rfl⟩
      · exact (((hnew g .read).1 h2).resolve_right fun hc' => nomatch hc'.1).2.symm
      · exact (((hnew g .write).1 h2).resolve_left fun hc' => nomatch hc'.1).2.symm
    · exact h.uniq f g e q ((hold f e q hq).1 h1) ((hold g e q hq).1 h2)
  · rw [hin] at hm
    have h1 : f ≠ r := fun hc' => hr.2 (hc' ▸ hm)
    have h2 : f ≠ w := fun hc' => hw.2 (hc' ▸ hm)
    rw [hko f h1 h2] at hk
    exact (hmem f).2 (.inr (.inr (h.flight f hm hk)))

theorem EndsInv.doPipe (h : EndsInv s) (hi : Inv s []) {pi rf wf : Option Nat}
    (hnew : s.NewPipe pi rf wf) : EndsInv (doPipe s k pi rf wf).2 := by
  cases pi with
  | none => exact h
  | some p =>
  cases rf with
  | none => exact h
  | some r =>
  cases wf with
  | none => exact h
  | some w =>
    obtain ⟨hpn, hrn, hwn, hne⟩ := hnew
    have hp := hpn p rfl
    have hrw : w ≠ r := fun hc => hne r rfl w rfl hc.symm
    have hr := not_mem_of_newFile hi (hrn r rfl)
    have hw := not_mem_of_newFile hi (hwn w rfl)
    have hi0 : Inv { s with pipes := Function.update s.pipes p (some ⟨1, 1⟩) } [] := ⟨hi.bal, hi.bound, hi.next⟩
    have hi1 := hi0.newFile (hrn r rfl) (some (.read, p))
    have hw1 : State.NewFile (State.newFile { s with pipes := Function.update s.pipes p (some ⟨1, 1⟩) } r
        (some (.read, p))) w := by
      simp only [State.NewFile, State.newFile, Pool.alloc, Function.update_of_ne hrw]
      exact hwn w rfl
    have hi2 := hi1.newFile hw1 (some (.write, p))
    -- a pipe that fails leaves files without descriptors behind, and no pipe
    have hback : ∀ s' : State, s'.kind = Function.update (Function.update s.kind r (some (.read, p))) w (some (.write, p)) →
        s'.pipes = Function.update s.pipes p (some ⟨1, 1⟩) → s'.inflight = s.inflight → (∀ g, s'.cnt g = s.cnt g) →
        EndsInv { s' with pipes := Function.update s'.pipes p none } := by
      intro s' h1 h2 h3 h4
      refine h.fresh (fun f hf => ?_) ?_ h3 h4
      · have hfw : f ≠ w := by
          rintro rfl
          exact hf.elim hw.1 hw.2
        have hfr : f ≠ r := by
          rintro rfl
          exact hf.elim hr.1 hr.2
        show s'.kind f = _
        rw [h1, Function.update_of_ne hfw, Function.update_of_ne hfr]
      · show Function.update s'.pipes p none = _
        rw [h2, Function.update_idem, ← hp, Function.update_eq_self]
    unfold Files.doPipe
    dsimp only
    generalize hs1 : State.newFile (State.newFile { s with pipes := Function.update s.pipes p (some ⟨1, 1⟩) } r
      (some (.read, p))) w (some (.write, p)) = s₁ at hi2
    have hk1 : s₁.kind = Function.update (Function.update s.kind r (some (.read, p))) w (some (.write, p)) := by
      rw [← hs1]
      rfl
    have hp1 : s₁.pipes = Function.update s.pipes p (some ⟨1, 1⟩) := by rw [← hs1]; rfl
    have hf1 : s₁.inflight = s.inflight := by rw [← hs1]; rfl
    have hc1 : ∀ g, s₁.cnt g = s.cnt g := fun g => by rw [← hs1]; rfl
    rcases hg : Files.getUnusedFd s₁ k with ⟨_ | rfd, s₂⟩
    · rw [getUnusedFd_none hg]
      exact hback ((s₁.kfreeFile r).kfreeFile w) hk1 hp1 hf1 hc1
    · obtain ⟨hi3, hin, he, hk2, -, -⟩ := hi2.getUnusedFd hg
      have hfr2 := (getUnusedFd_frame hg).trans (frame_fdInstall s₂ k rfd r)
      have hc2 : ∀ g, (Files.fdInstall s₂ k rfd r).cnt g = one (some r) g + s.cnt g := fun g => by
        rw [cnt_fdInstall hi3.bound hk2 hin he, hi2.getUnusedFd_cnt hg, hc1]
      have hi4 : Inv (Files.fdInstall s₂ k rfd r) [w] := (hi3.perm (List.Perm.swap r w [])).fdInstall hk2 hin he
      have hk4 : ((Files.fdInstall s₂ k rfd r).files k).isSome := isSome_fdInstall hk2
      dsimp only
      rcases hg2 : Files.getUnusedFd (Files.fdInstall s₂ k rfd r) k with ⟨_ | wfd, s₃⟩
      · rw [getUnusedFd_none hg2]
        have hfr3 := hfr2.trans (frame_doClose (Files.fdInstall s₂ k rfd r) k rfd)
        have hl : (Files.fdInstall s₂ k rfd r).lookup k rfd = some r := by
          unfold State.lookup Files.fdInstall
          rw [if_pos hin, if_pos hin, entry_setSlot hk2, if_pos rfl]
        have hc3 : ∀ g, (Files.doClose (Files.fdInstall s₂ k rfd r) k rfd).2.cnt g = s.cnt g := fun g => by
          have hc : one ((Files.fdInstall s₂ k rfd r).lookup k rfd) g +
              (Files.doClose (Files.fdInstall s₂ k rfd r) k rfd).2.cnt g = (Files.fdInstall s₂ k rfd r).cnt g :=
            cnt_doClose hi4.bound hk4 g
          rw [hl, hc2] at hc
          exact Nat.add_left_cancel hc
        exact hback ((Files.doClose (Files.fdInstall s₂ k rfd r) k rfd).2.kfreeFile w) (hfr3.kind.trans hk1)
          (hfr3.pipes.trans hp1) (hfr3.inflight.trans hf1) hc3
      · obtain ⟨hi5, hin2, he2, hk5, -, -⟩ := hi4.getUnusedFd hg2
        have hfr4 := (hfr2.trans (getUnusedFd_frame hg2)).trans (frame_fdInstall s₃ k wfd w)
        refine h.newPipe hp hr hw hrw (hfr4.kind.trans hk1) (hfr4.pipes.trans hp1) (hfr4.inflight.trans hf1) fun g => ?_
        rw [cnt_fdInstall hi5.bound hk5 hin2 he2, hi4.getUnusedFd_cnt hg2, hc2]

/-! ## Fork and exit -/

/-- The descriptors of a task more. -/
theorem cnt_add (h1 : s'.ntasks = s.ntasks + 1) (h2 : s'.files = Function.update s.files s.ntasks (some t))
    (h3 : s'.inflight = s.inflight) (f : Nat) : s'.cnt f = t.slots.count f + s.cnt f := by
  have hc := (refs_add h1 h2 h3).count_eq f
  unfold State.refs at hc
  rw [List.count_append, List.count_append, List.count_append, h3] at hc
  unfold State.cnt State.slotFiles
  omega

theorem EndsInv.filesCopy (h : EndsInv s) (hi : Inv s []) (mem : Bool) (junk : Int → FdEntry) :
    EndsInv (filesCopy s k mem junk) := by
  unfold Files.filesCopy
  cases ht : s.files k with
  | none => exact h
  | some t =>
    cases mem with
    | false =>
      refine h.same ⟨rfl, rfl, rfl⟩ fun f => ?_
      have hnil : s.slotsOf s.ntasks = [] := by
        unfold State.slotsOf
        rw [hi.bound s.ntasks (Nat.le_refl _)]
      show (gather s.slotsOf s.ntasks ++ s.slotsOf s.ntasks).count f = (gather s.slotsOf s.ntasks).count f
      rw [hnil, List.append_nil]
    | true =>
      simp only [Bool.not_true, Bool.false_eq_true, if_false]
      generalize hs' : State.mk (t.slots.foldl Pool.inc s.pool) s.kind s.pipes (s.ntasks + 1)
        (Function.update s.files s.ntasks (some (t.copy junk))) s.zombie s.inflight = s'
      have hframe : Frame s s' := by
        rw [← hs']
        exact ⟨rfl, rfl, rfl⟩
      have hcnt : ∀ f, s'.cnt f = t.slots.count f + s.cnt f := by
        intro f
        have h2 : s'.files = Function.update s.files s.ntasks (some (t.copy junk)) := by rw [← hs']
        rw [← slots_copy t junk]
        exact cnt_add (by rw [← hs']) h2 hframe.inflight f
      refine h.moved hframe (fun f hm _ => ?_) fun f _ hp => ?_
      · rw [hcnt]
        exact Nat.lt_of_lt_of_le (cnt_pos.2 hm) (Nat.le_add_left _ _)
      · rw [hcnt] at hp
        rcases Nat.eq_zero_or_pos (t.slots.count f) with h0 | h0
        · exact cnt_pos.1 (by omega)
        · obtain ⟨i, hin, he⟩ := mem_slots.1 (List.count_pos_iff.1 h0)
          have hl : s.lookup k i = some f := by
            unfold State.lookup
            rw [if_pos hin, entry_eq ht]
            exact he
          exact mem_slotFiles_of_lookup hi.bound hl

/-- A step that changes one task's table alone. -/
structure OnlyTable (s s' : State) (k : Nat) : Prop where
  frame : Frame s s'
  ntasks : s'.ntasks = s.ntasks
  other : ∀ j, j ≠ k → s'.files j = s.files j

theorem OnlyTable.refl (s : State) (k : Nat) : OnlyTable s s k := ⟨⟨rfl, rfl, rfl⟩, rfl, fun _ _ => rfl⟩

theorem OnlyTable.trans {s₁ s₂ s₃ : State} (h : OnlyTable s₁ s₂ k) (h' : OnlyTable s₂ s₃ k) : OnlyTable s₁ s₃ k :=
  ⟨h.frame.trans h'.frame, h'.ntasks.trans h.ntasks, fun j hj => (h'.other j hj).trans (h.other j hj)⟩

theorem onlyTable_setSlot (s : State) (k : Nat) (i : Int) (en : FdEntry) : OnlyTable s (s.setSlot k i en) k := by
  unfold State.setSlot
  split
  · exact OnlyTable.refl s k
  · exact ⟨⟨rfl, rfl, rfl⟩, rfl, fun j hj => Function.update_of_ne hj _ _⟩

theorem onlyTable_exitSlot (s : State) (k n : Nat) : OnlyTable s (exitSlot s k n) k := by
  unfold exitSlot
  split
  · exact OnlyTable.refl s k
  · have h0 : ∀ f, OnlyTable s (fput s f) k := fun f => ⟨frame_fput s f, rfl, fun _ _ => rfl⟩
    exact (h0 _).trans (onlyTable_setSlot _ _ _ _)

theorem onlyTable_exitClose (s : State) (k : Nat) : OnlyTable s (exitClose s k) k := by
  have h : ∀ (l : List Nat) (s : State), OnlyTable s (l.foldl (fun s i => exitSlot s k i) s) k := by
    intro l
    induction l with
    | nil => exact fun s => OnlyTable.refl s k
    | cons n l ih => exact fun s => (onlyTable_exitSlot s k n).trans (ih _)
  exact h _ s

theorem onlyTable_filesFree (s : State) (k : Nat) : OnlyTable s (filesFree s k) k :=
  ⟨⟨rfl, rfl, rfl⟩, rfl, fun _ hj => Function.update_of_ne hj _ _⟩

/-- The files of a table that goes keep a descriptor if they are pipes'. -/
def AllSpare (s : State) (k : Nat) : Prop := ∀ f ∈ s.slotsOf k, s.kind f ≠ none → (s.slotsOf k).count f < s.cnt f

instance (s : State) (k : Nat) : Decidable (AllSpare s k) := inferInstanceAs (Decidable (∀ _ ∈ _, _))

/-- **A table emptied** takes its descriptors along. -/
theorem EndsInv.emptied (h : EndsInv s) (hi : Inv s []) (ho : OnlyTable s s' k) (hnil : s'.slotsOf k = [])
    (hsp : AllSpare s k) : EndsInv s' := by
  have hcnt : ∀ f, (s.slotsOf k).count f + s'.cnt f = s.cnt f := by
    intro f
    have hj : ∀ j, j ≠ k → s'.slotsOf j = s.slotsOf j := by
      intro j hne
      unfold State.slotsOf
      rw [ho.other j hne]
    unfold State.cnt State.slotFiles
    rw [ho.ntasks]
    by_cases hk : k < s.ntasks
    · have hp := (gather_set hk fun j _ hne => hj j hne).count_eq f
      rw [hnil, List.nil_append, List.count_append] at hp
      exact hp
    · have h0 : s.slotsOf k = [] := by
        unfold State.slotsOf
        rw [hi.bound k (Nat.le_of_not_lt hk)]
      rw [h0, gather_congr fun j hlt => hj j (fun hc => hk (hc ▸ hlt) : j ≠ k)]
      exact Nat.zero_add _
  refine h.moved ho.frame (fun f hm hkd => ?_) fun f _ hp => cnt_pos.1 (by have := hcnt f; omega)
  have hc := hcnt f
  by_cases hf : f ∈ s.slotsOf k
  · have hlt := hsp f hf hkd
    omega
  · have hpos := cnt_pos.2 hm
    rw [List.count_eq_zero_of_not_mem hf] at hc
    omega

theorem slotsOf_exitClose (hi : Inv s []) (k : Nat) : (exitClose s k).slotsOf k = [] := by
  unfold State.slotsOf
  cases ht : s.files k with
  | none => rw [exitClose_none ht, ht]
  | some t =>
    obtain ⟨-, t', ht', hnil⟩ := hi.exitClose (k := k) (by rw [ht]; rfl)
    rw [ht']
    exact hnil

theorem slotsOf_filesFree (s : State) (k : Nat) : (filesFree s k).slotsOf k = [] := by
  unfold State.slotsOf filesFree
  dsimp only
  rw [Function.update_self]

/-! ## Exec -/

/-- **The pipe's end that close-on-exec takes** loses its one descriptor and its count together. -/
theorem EndsInv.released (h : EndsInv s) {e : PipeEnd} {p : Nat} (hpf : PipeFile s f e p) (hkind : s'.kind = s.kind)
    (hpipes : s'.pipes = (pipeRelease s e p).pipes) (hin : s'.inflight = s.inflight) (hnin : f ∉ s.inflight)
    (hmem : ∀ g, g ∈ s'.slotFiles ↔ g ≠ f ∧ g ∈ s.slotFiles) : EndsInv s' := by
  obtain ⟨c, hc, hone⟩ := h.live f e p hpf
  have hother : ∀ e', e' ≠ e → (c.dec e).get e' = c.get e' := by
    intro e' hne
    cases e <;> cases e' <;> first | exact absurd rfl hne | rfl
  have hself : (c.dec e).get e = 0 := by
    cases e <;> exact Int.sub_eq_zero.2 hone
  have hp' : s'.pipes = Function.update s.pipes p
      (if (c.dec e).readers = 0 ∧ (c.dec e).writers = 0 then none else some (c.dec e)) := by
    rw [hpipes]
    unfold pipeRelease
    rw [hc]
  have hiff : ∀ g e' q, PipeFile s' g e' q ↔ g ≠ f ∧ PipeFile s g e' q := by
    intro g e' q
    unfold PipeFile
    rw [hkind, hmem, and_assoc]
  refine ⟨fun g e' q hg => ?_, fun q c' e' hq h0 => ?_, fun g g' e' q h1 h2 => ?_, fun g hm hk => ?_⟩
  · obtain ⟨hgf, hg⟩ := (hiff g e' q).1 hg
    rw [hp']
    by_cases hq : q = p
    · subst hq
      have hne : e' ≠ e := by
        rintro rfl
        exact hgf (h.uniq g f e' q hg hpf)
      obtain ⟨c', hc', hone'⟩ := h.live g e' q hg
      rw [hc] at hc'
      cases hc'
      have hget : (c.dec e).get e' = 1 := (hother e' hne).trans hone'
      rw [Function.update_self, if_neg]
      · exact ⟨_, rfl, hget⟩
      · rintro ⟨hr, hw⟩
        have hz : (c.dec e).get e' = 0 := by cases e' <;> assumption
        rw [hget] at hz
        cases hz
    · rw [Function.update_of_ne hq]
      exact h.live g e' q hg
  · rw [hp'] at hq
    by_cases hqp : q = p
    · subst hqp
      rw [Function.update_self] at hq
      split at hq
      · cases hq
      · cases hq
        have hne : e' ≠ e := by
          rintro rfl
          exact h0 hself
        rw [hother e' hne] at h0
        obtain ⟨g, hg⟩ := h.held q c e' hc h0
        refine ⟨g, (hiff g e' q).2 ⟨?_, hg⟩⟩
        rintro rfl
        have hkk := hg.2.symm.trans hpf.2
        simp only [Option.some.injEq, Prod.mk.injEq] at hkk
        exact hne hkk.1
    · rw [Function.update_of_ne hqp] at hq
      obtain ⟨g, hg⟩ := h.held q c' e' hq h0
      refine ⟨g, (hiff g e' q).2 ⟨?_, hg⟩⟩
      rintro rfl
      have hkk := hg.2.symm.trans hpf.2
      simp only [Option.some.injEq, Prod.mk.injEq] at hkk
      exact hqp hkk.2
  · exact h.uniq g g' e' q ((hiff g e' q).1 h1).2 ((hiff g' e' q).1 h2).2
  · rw [hin] at hm
    rw [hkind] at hk
    refine (hmem g).2 ⟨?_, h.flight g hm hk⟩
    rintro rfl
    exact hnin hm

theorem cnt_le_one (hi : Inv s []) (h1 : s.pool.count f = some 1) : s.cnt f ≤ 1 ∧ (f ∈ s.slotFiles → f ∉ s.inflight) := by
  have hmem : f ∈ s.refs := hi.bal.isSome_iff.1 (by rw [h1]; rfl)
  have hc := hi.bal.eq_some_of_mem (x := f) hmem
  rw [h1] at hc
  have hcount : (s.cnt f + s.inflight.count f : Int) = 1 := by
    have h2 : ([] ++ s.refs).count f = (s.slotFiles ++ s.inflight).count f := rfl
    rw [h2, List.count_append] at hc
    exact (Option.some.inj hc).symm
  refine ⟨by omega, fun hm hin => ?_⟩
  have h3 := cnt_pos.2 hm
  have h4 := List.count_pos_iff.2 hin
  omega

/-- **One turn of the close-on-exec loop.** -/
theorem EndsInv.execSlot (h : EndsInv s) (hi : Inv s []) (hk : (s.files k).isSome) {n : Nat} (hn : n < maxFds)
    (hok : SlotOk s k n) : EndsInv (execSlot s k n) := by
  rcases execSlot_cases s k n with ⟨he, -⟩ | ⟨f, hf, hc, he⟩
  · rwa [he]
  obtain ⟨hle, hnin⟩ := cnt_le_one hi (hok f hf hc)
  have hlook : s.lookup k n = some f := by
    unfold State.lookup
    rw [if_pos (inTable_iff.2 hn)]
    exact hf
  have hmem := mem_slotFiles_of_lookup hi.bound hlook
  have hk' : ((Files.filpClose s f).files k).isSome := by rwa [filpClose_files]
  have hb : ∀ j, (Files.filpClose s f).ntasks ≤ j → (Files.filpClose s f).files j = none := by
    rw [filpClose_files, filpClose_ntasks]
    exact hi.bound
  have hcnt : ∀ g, (Files.execSlot s k n).cnt g = if g = f then 0 else s.cnt g := by
    intro g
    have hset := cnt_setSlot hb hk' (inTable_iff.2 hn) .empty g
    have hsame : (Files.filpClose s f).cnt g = s.cnt g := by
      unfold State.cnt State.slotFiles
      rw [filpClose_ntasks]
      congr 2
      unfold State.slotsOf
      rw [filpClose_files]
    have h0 : one FdEntry.empty.file g = 0 := rfl
    rw [filpClose_entry, hf, hsame, h0, one_some, ← he] at hset
    by_cases hgf : g = f
    · subst hgf
      rw [if_pos rfl] at hset ⊢
      omega
    · rw [if_neg (Ne.symm hgf)] at hset
      rw [if_neg hgf]
      omega
  have hiff : ∀ g, g ∈ (Files.execSlot s k n).slotFiles ↔ g ≠ f ∧ g ∈ s.slotFiles := by
    intro g
    rw [← cnt_pos, ← cnt_pos, hcnt]
    by_cases hgf : g = f
    · rw [if_pos hgf]
      exact iff_of_false (Nat.lt_irrefl 0) fun hc => hc.1 hgf
    · rw [if_neg hgf]
      exact (and_iff_right hgf).symm
  have hframe := frame_setSlot (Files.filpClose s f) k n .empty
  rw [← he] at hframe
  cases hkd : s.kind f with
  | none =>
    have hrel : Files.filpClose s f = s.kfreeFile f := by
      unfold Files.filpClose release
      rw [hkd]
    rw [hrel] at hframe
    refine h.moved ⟨hframe.kind, hframe.pipes, hframe.inflight⟩ (fun g hm hkg => ?_) fun g _ hp => ?_
    · refine cnt_pos.2 ((hiff g).2 ⟨?_, hm⟩)
      rintro rfl
      exact hkg hkd
    · exact ((hiff g).1 (cnt_pos.1 hp)).2
  | some ep =>
    obtain ⟨e, p⟩ := ep
    have hrel : Files.filpClose s f = (pipeRelease s e p).kfreeFile f := by
      unfold Files.filpClose release
      rw [hkd]
    rw [hrel] at hframe
    have hkind : (pipeRelease s e p).kind = s.kind ∧ (pipeRelease s e p).inflight = s.inflight := by
      unfold pipeRelease
      split <;> exact ⟨rfl, rfl⟩
    exact h.released ⟨hmem, hkd⟩ (hframe.kind.trans hkind.1) hframe.pipes (hframe.inflight.trans hkind.2) (hnin hmem) hiff

theorem EndsInv.execSlots : ∀ (l : List Nat) {s : State}, EndsInv s → Inv s [] → (s.files k).isSome →
    (∀ n ∈ l, n < maxFds) → l.Nodup → (∀ n ∈ l, SlotOk s k n) →
    EndsInv (l.foldl (fun s n => Files.execSlot s k n) s)
  | [], _, h, _, _, _, _, _ => h
  | n :: l, s, h, hi, hk, hl, hnd, hok => by
    have hn := hl n List.mem_cons_self
    obtain ⟨hnl, hnd'⟩ := List.nodup_cons.1 hnd
    obtain ⟨-, hk'⟩ := exec_bound (n := n) hi.bound hk
    have hi' := hi.execSlot_ok hk hn (hok n List.mem_cons_self)
    have h' := h.execSlot hi hk hn (hok n List.mem_cons_self)
    refine EndsInv.execSlots l h' hi' hk' (fun m hm => hl m (List.mem_cons_of_mem n hm)) hnd' fun m hm => ?_
    exact (hi'.slotOk_iff (hl m (List.mem_cons_of_mem n hm)) fun hc => hnl (hc ▸ hm)).2 (hok m (List.mem_cons_of_mem n hm))

theorem EndsInv.execClose (h : EndsInv s) (hi : Inv s []) (hk : (s.files k).isSome) (hok : ExecOk s k) :
    EndsInv (execClose s k) :=
  EndsInv.execSlots (List.range maxFds) h hi hk (fun _ hn => List.mem_range.1 hn) List.nodup_range
    fun n hn => hok n (List.mem_range.1 hn)

/-! ## Runs -/

/-- **The steps that keep the ends right**: `close`, `dup2`, `dup3` and a task that ends do not take the last descriptor of a
pipe's end.  Close-on-exec may. -/
def KeepsEnds (s : State) : Label → Prop
  | .close k fd => Spare s k fd
  | .dup2 k oldfd newfd | .dup3 k oldfd newfd _ => Dup2Spares s k oldfd newfd
  | .exit k | .reap k => AllSpare s k
  | _ => True

instance (s : State) : ∀ a, Decidable (KeepsEnds s a)
  | .close k fd => inferInstanceAs (Decidable (Spare s k fd))
  | .dup2 k oldfd newfd | .dup3 k oldfd newfd _ => inferInstanceAs (Decidable (Dup2Spares s k oldfd newfd))
  | .exit k | .reap k => inferInstanceAs (Decidable (AllSpare s k))
  | .opn _ _ | .dup _ _ | .dupfd _ _ _ _ | .setfd _ _ _ | .pipe _ _ _ _ | .fork _ _ _ | .exec _ | .taskExit _ | .fget _ _
  | .fput _ => inferInstanceAs (Decidable True)

theorem EndsInv.step (h : EndsInv s) (hi : Inv s []) {a : Label} (hok : StepOk s a) (hke : KeepsEnds s a)
    (hs : fileStep s a = some s') : EndsInv s' := by
  cases a with
  | opn k new =>
    obtain ⟨⟨-, hnew⟩, rfl⟩ := when_some hs
    exact h.sysOpen hi hnew
  | close k fd =>
    obtain ⟨hl, rfl⟩ := when_some hs
    exact h.doClose hi hl.1 hke
  | dup k oldfd =>
    obtain ⟨-, rfl⟩ := when_some hs
    exact h.sysDup hi
  | dup2 k oldfd newfd =>
    obtain ⟨hl, rfl⟩ := when_some hs
    exact h.sysDup2 hi hl.1 hok hke
  | dup3 k oldfd newfd cloexec =>
    obtain ⟨hl, rfl⟩ := when_some hs
    exact h.sysDup3 hi hl.1 hok hke
  | dupfd k fd arg cloexec =>
    obtain ⟨hl, rfl⟩ := when_some hs
    exact h.sysDupfd hi hl.1 hok
  | setfd k fd cloexec =>
    obtain ⟨hl, rfl⟩ := when_some hs
    exact h.sysSetfd hi hl.1
  | pipe k pi rf wf =>
    obtain ⟨⟨-, hnew⟩, rfl⟩ := when_some hs
    exact h.doPipe hi hnew
  | fork k mem junk =>
    obtain ⟨-, rfl⟩ := when_some hs
    exact h.filesCopy hi mem junk
  | exec k =>
    have hs : when (s.Live k) (Files.execClose s k) = some s' := hs
    obtain ⟨hl, he⟩ := when_some hs
    rw [he]
    exact h.execClose hi hl.1 hok
  | exit k =>
    have hs : when (s.Live k) ((exitClose s k).bury k) = some s' := hs
    obtain ⟨-, he⟩ := when_some hs
    have ho := onlyTable_exitClose s k
    have h1 := h.emptied hi ho (slotsOf_exitClose hi k) hke
    rw [he]
    generalize exitClose s k = s₁ at h1
    exact h1.same ⟨rfl, rfl, rfl⟩ fun _ => rfl
  | taskExit k =>
    obtain ⟨-, rfl⟩ := when_some hs
    have hnil : s.slotsOf k = [] := hok
    have h1 := h.emptied hi (onlyTable_filesFree s k) (slotsOf_filesFree s k) fun f hf => by
      rw [hnil] at hf
      cases hf
    exact h1.same ⟨rfl, rfl, rfl⟩ fun _ => rfl
  | reap k =>
    have hs : when (s.zombie k = true) (filesFree (exitClose s k) k) = some s' := hs
    obtain ⟨-, he⟩ := when_some hs
    have ho := (onlyTable_exitClose s k).trans (onlyTable_filesFree (exitClose s k) k)
    rw [he]
    exact h.emptied hi ho (slotsOf_filesFree _ k) hke
  | fget k fd =>
    obtain ⟨-, rfl⟩ := when_some hs
    rw [fget_eq]
    cases hl : s.lookup k fd with
    | none => exact h
    | some f =>
      refine ⟨h.live, h.held, h.uniq, fun g hm hk => ?_⟩
      rcases List.mem_cons.1 hm with rfl | hm
      · exact mem_slotFiles_of_lookup hi.bound hl
      · exact h.flight g hm hk
  | fput f =>
    obtain ⟨-, rfl⟩ := when_some hs
    exact ⟨h.live, h.held, h.uniq, fun g hm hk => h.flight g (List.mem_of_mem_erase hm) hk⟩

theorem EndsInv.init (h : fileMachine.init s) : EndsInv s := by
  have hi := Inv.init h
  obtain ⟨hpool, hpipes, -, -, -, hin, -⟩ := h
  have hnil : ∀ f, f ∉ s.slotFiles := by
    intro f hf
    have hs := hi.bal.isSome_iff.2 (show f ∈ s.slotFiles ++ s.inflight from List.mem_append_left _ hf)
    rw [hpool] at hs
    cases hs
  refine ⟨fun f e p hpf => absurd hpf.1 (hnil f), fun p c e hc => ?_, fun f g e p hpf => absurd hpf.1 (hnil f), fun f hm => ?_⟩
  · rw [hpipes] at hc
    cases hc
  · rw [hin] at hm
    cases hm

/-- **The counts of a pipe's ends track its descriptors in every state of a run that keeps the books and never takes an
end's last descriptor but by close-on-exec.** -/
theorem endsTracked_of_run (s : State) (l : List Label) (s' : State) (h0 : fileMachine.init s)
    (h : fileMachine.RunOk (fun s a => StepOk s a ∧ KeepsEnds s a) s l s') : EndsTracked s' := by
  have hrun := fileMachine.runOk_invariant (P := fun s => Inv s [] ∧ EndsInv s)
    (fun t a t' hP hok ht => ⟨(hP.1.step ht).1 hok.1, hP.2.step hP.1 hok.1 hok.2 ht⟩) l s s' ⟨Inv.init h0, EndsInv.init h0⟩ h
  exact hrun.2.tracked

/-! ## A writer that closes its end -/

/-- A pipe whose only write descriptor is closed: the writers stay one, and a reader of the empty pipe waits for ever. -/
theorem not_endsTracked_close : ∃ s, fileMachine.init boot ∧
    fileMachine.run boot [.pipe 0 (some 9) (some 7) (some 8), .close 0 1] = some s ∧
    s.pipes 9 = some ⟨1, 1⟩ ∧ s.lookup 0 0 = some 7 ∧ s.kind 7 = some (.read, 9) ∧ ¬Refers s .write 9 ∧ ¬EndsTracked s := by
  have hrun : (fileMachine.run boot [.pipe 0 (some 9) (some 7) (some 8), .close 0 1]).map (fun s =>
      (s.pipes 9, s.lookup 0 0, s.kind 7, decide (s.slotFiles = [7]))) =
        some (some ⟨1, 1⟩, some 7, some (.read, 9), true) := by
    decide +kernel
  obtain ⟨s, hs, hval⟩ := Option.map_eq_some_iff.1 hrun
  simp only [Prod.mk.injEq, decide_eq_true_eq] at hval
  obtain ⟨hp, hl, hk, hslots⟩ := hval
  have hno : ¬Refers s .write 9 := by
    rintro ⟨f, hm, hf⟩
    rw [hslots] at hm
    cases List.mem_singleton.1 hm
    rw [hk] at hf
    cases hf
  refine ⟨s, boot_init, hs, hp, hl, hk, hno, fun ht => ?_⟩
  have h0 := (ht.zero 9 ⟨1, 1⟩ hp .write).2 hno
  cases h0

/-- A pipe shared over a fork; the child closes its write end and moves its read end, and the parent's
write end goes with close-on-exec. -/
theorem endsTracked_in_seven : ∃ s, fileMachine.RunOk (fun s a => StepOk s a ∧ KeepsEnds s a) boot
      [.pipe 0 (some 9) (some 7) (some 8), .fork 0 true fun _ => .empty, .close 1 1, .dup2 1 0 5, .close 1 0, .setfd 0 1 true,
        .exec 0] s ∧
    EndsTracked s := by
  have hrun : (fileMachine.check (fun s a => StepOk s a ∧ KeepsEnds s a) boot
      [.pipe 0 (some 9) (some 7) (some 8), .fork 0 true fun _ => .empty, .close 1 1, .dup2 1 0 5, .close 1 0, .setfd 0 1 true,
        .exec 0]).isSome = true := by
    decide +kernel
  obtain ⟨s, hs⟩ := Option.isSome_iff_exists.1 hrun
  have hok := fileMachine.runOk_of_check hs
  exact ⟨s, hok, endsTracked_of_run boot _ s boot_init hok⟩

end Files
end Pico
