import Picomimi.FilesRun
/-!
# FdLowest — which descriptor `get_unused_fd` returns

The search begins at `next_fd`, and only if nothing is free from there on does it begin at 0.  A call that takes a
descriptor moves `next_fd` past it; `do_close` leaves `next_fd` alone, and nothing but `put_unused_fd` lowers it.
`lowest_iff_runOk` says in which runs every search returns the lowest free descriptor: those in which, at each of them,
either everything below `next_fd` is in use or everything from it on.
-/
namespace Pico
namespace FdLowest

open Lib Files

/-! ## The other calls that search -/

/-- `socket_alloc_fd`; `file` is what `kzalloc` returns, once the descriptor is chosen. -/
def socketAllocFd (s : State) (k : Nat) (file : Option Nat) : Int × State :=
  match getUnusedFd s k with
  | (none, s) => (-emfile, s)
  | (some fd, s) =>
    match file with
    | none => (-enomem, s)
    | some f => (fd, fdInstall (s.newFile f none) k fd f)

def putUnusedFd (s : State) (k : Nat) (fd : Int) : State :=
  if InTable fd then
    match s.files k with
    | none => s
    | some t => s.setTable k { t.set fd .empty with nextFd := if fd < t.nextFd then fd.toNat else t.nextFd }
  else s

def sysEpollCreate (s : State) (k : Nat) (file : Option Nat) : Int × State :=
  match getUnusedFd s k with
  | (none, s) => (-emfile, s)
  | (some fd, s) =>
    match file with
    | none => (-enomem, putUnusedFd s k fd)
    | some f => (fd, fdInstall (s.newFile f none) k fd f)

inductive Label where
  | call (l : Files.Label)
  | socket (k : Nat) (file : Option Nat)       -- `socket`, `accept4`, and each half of `socketpair`
  | epollCreate (k : Nat) (file : Option Nat)

def step (s : State) : Label → Option State
  | .call l => fileStep s l
  | .socket k file => when (s.Live k ∧ ∀ f ∈ file, s.NewFile f) (socketAllocFd s k file).2
  | .epollCreate k file => when (s.Live k ∧ ∀ f ∈ file, s.NewFile f) (sysEpollCreate s k file).2

def machine : Machine State Label where
  init := fileMachine.init
  step := step

/-! ## The law -/

/-- The task that makes the call. -/
def caller : Label → Nat
  | .call (.opn k _) | .call (.dup k _) | .call (.pipe k _ _ _) | .socket k _ | .epollCreate k _ => k
  | .call _ => 0

/-- The state in which `do_pipe` makes its first search. -/
def pipeMade (s : State) (pi rf wf : Nat) : State :=
  (({ s with pipes := Function.update s.pipes pi (some ⟨1, 1⟩) }).newFile rf (some (.read, pi))).newFile wf
    (some (.write, pi))

/-- The states in which the call searches. -/
def searches (s : State) : Label → List State
  | .call (.opn _ (some f)) => [s.newFile f none]
  | .call (.dup k oldfd) =>
    match fget s k oldfd with
    | (none, _) => []
    | (some _, s) => [s]
  | .call (.pipe k (some pi) (some rf) (some wf)) =>
    match getUnusedFd (pipeMade s pi rf wf) k with
    | (none, _) => [pipeMade s pi rf wf]
    | (some rfd, s') => [pipeMade s pi rf wf, fdInstall s' k rfd rf]
  | .socket _ _ | .epollCreate _ _ => [s]
  | .call _ => []

def Used (s : State) (k : Nat) (fd : Nat) : Prop := (s.entry k fd).file ≠ none

instance (s : State) (k fd : Nat) : Decidable (Used s k fd) := inferInstanceAs (Decidable (_ ≠ _))

/-- **The lowest descriptor that is not in use**, or none because all are. -/
def Lowest (s : State) (k : Nat) : Option Nat → Prop
  | some fd => fd < maxFds ∧ ¬Used s k fd ∧ ∀ j < fd, Used s k j
  | none => ∀ j < maxFds, Used s k j

/-- **Every search of the step finds the lowest.** -/
def Law (s : State) (a : Label) : Prop := ∀ x ∈ searches s a, Lowest x (caller a) (getUnusedFd x (caller a)).1

/-- Everything below the hint is in use, or everything from it on. -/
def HintOk (s : State) (k : Nat) : Prop :=
  ∀ t ∈ s.files k, (∀ j < t.nextFd, Used s k j) ∨ ∀ j < maxFds, t.nextFd ≤ j → Used s k j

instance (s : State) (k : Nat) : Decidable (HintOk s k) :=
  inferInstanceAs (Decidable (∀ t ∈ s.files k, (∀ j < t.nextFd, Used s k j) ∨ ∀ j < maxFds, t.nextFd ≤ j → Used s k j))

/-- **A call that searches finds the hint in order.** -/
def HintHolds (s : State) (a : Label) : Prop := searches s a ≠ [] → HintOk s (caller a)

instance (s : State) (a : Label) : Decidable (HintHolds s a) :=
  inferInstanceAs (Decidable (searches s a ≠ [] → HintOk s (caller a)))

/-! ## One search -/

variable {s s' : State} {t t' : FilesStruct} {k fd : Nat}

theorem firstUnused_before : ∀ {n i j : Nat}, firstUnused t n i = some j → ∀ m, i ≤ m → m < j → (t.fdArray m).file ≠ none
  | n + 1, i, j, h, m, hi, hm => by
    unfold firstUnused at h
    split at h
    · cases h
      omega
    · rename_i hne
      rcases Nat.eq_or_lt_of_le hi with rfl | hlt
      · exact hne
      · exact firstUnused_before h m hlt hm

theorem firstUnused_none : ∀ {n i : Nat}, firstUnused t n i = none → ∀ m, i ≤ m → m < i + n → (t.fdArray m).file ≠ none
  | 0, i, _, m, hi, hm => by omega
  | n + 1, i, h, m, hi, hm => by
    unfold firstUnused at h
    split at h
    · cases h
    · rename_i hne
      rcases Nat.eq_or_lt_of_le hi with rfl | hlt
      · exact hne
      · exact firstUnused_none h m hlt (by omega)

/-- Where the search finds something: from the hint on, or below it when nothing is free from there on. -/
theorem getUnusedFd_cases (ht : s.files k = some t) (hn : t.nextFd ≤ maxFds) :
    (∃ i, getUnusedFd s k = (some i, s.setTable k { t with nextFd := i + 1 }) ∧ i < maxFds ∧ ¬Used s k i ∧
      (t.nextFd ≤ i ∧ (∀ j, t.nextFd ≤ j → j < i → Used s k j) ∨
        i < t.nextFd ∧ (∀ j < i, Used s k j) ∧ ∀ j < maxFds, t.nextFd ≤ j → Used s k j)) ∨
    getUnusedFd s k = (none, s) ∧ ∀ j < maxFds, Used s k j := by
  have hused : ∀ j : Nat, Used s k j ↔ (t.fdArray j).file ≠ none := fun j => by rw [Used, entry_eq ht]
  simp only [hused]
  unfold getUnusedFd
  simp only [ht]
  cases h1 : firstUnused t (maxFds - t.nextFd) t.nextFd with
  | some i =>
    obtain ⟨hi, hlt, he⟩ := firstUnused_spec h1
    exact .inl ⟨i, rfl, by omega, not_not.2 he, .inl ⟨hi, firstUnused_before h1⟩⟩
  | none =>
    have habove : ∀ j < maxFds, t.nextFd ≤ j → (t.fdArray j).file ≠ none := fun j hj hle =>
      firstUnused_none h1 j hle (by omega)
    cases h2 : firstUnused t t.nextFd 0 with
    | some i =>
      obtain ⟨-, hlt, he⟩ := firstUnused_spec h2
      refine .inl ⟨i, rfl, by omega, not_not.2 he, .inr ⟨by omega, fun j hj => ?_, habove⟩⟩
      exact firstUnused_before h2 j (Nat.zero_le j) hj
    | none =>
      refine .inr ⟨rfl, fun j hj => ?_⟩
      by_cases hle : t.nextFd ≤ j
      · exact habove j hj hle
      · exact firstUnused_none h2 j (Nat.zero_le j) (by omega)

/-- **A search finds the lowest free descriptor exactly when the hint is in order.** -/
theorem lowest_iff (ht : s.files k = some t) (hn : t.nextFd ≤ maxFds) : Lowest s k (getUnusedFd s k).1 ↔ HintOk s k := by
  have hok : HintOk s k ↔ (∀ j < t.nextFd, Used s k j) ∨ ∀ j < maxFds, t.nextFd ≤ j → Used s k j := by
    unfold HintOk
    rw [ht]
    exact ⟨fun h => h t rfl, fun h u hu => Option.some.inj hu ▸ h⟩
  rw [hok]
  rcases getUnusedFd_cases ht hn with ⟨i, hg, hi, hfree, ⟨hle, hmid⟩ | ⟨hlt, hlow, hup⟩⟩ | ⟨hg, hall⟩ <;> rw [hg]
  · constructor
    · exact fun h => .inl fun j hj => h.2.2 j (Nat.lt_of_lt_of_le hj hle)
    · rintro (h | h)
      · refine ⟨hi, hfree, fun j hj => ?_⟩
        by_cases hj' : j < t.nextFd
        · exact h j hj'
        · exact hmid j (Nat.not_lt.1 hj') hj
      · exact absurd (h i hi hle) hfree
  · exact iff_of_true ⟨hi, hfree, hlow⟩ (.inr hup)
  · exact iff_of_true hall (.inr fun j hj _ => hall j hj)

/-- After a search that found the lowest, with the descriptor taken, everything below the hint is in use. -/
theorem hintOk_fdInstall (ht : s.files k = some t) (hn : t.nextFd ≤ maxFds) (hg : getUnusedFd s k = (some fd, s'))
    (hok : HintOk s k) (f : Nat) : HintOk (fdInstall s' k fd f) k ∧
      ∃ t', (fdInstall s' k fd f).files k = some t' ∧ t'.nextFd ≤ maxFds := by
  have hlow : fd < maxFds ∧ (∀ j < fd, Used s k j) ∧ s' = s.setTable k { t with nextFd := fd + 1 } := by
    have hl := (lowest_iff ht hn).2 hok
    rcases getUnusedFd_cases ht hn with ⟨i, hg', hi, -, -⟩ | ⟨hg', -⟩ <;> rw [hg] at hg' hl
    · cases hg'
      exact ⟨hi, hl.2.2, rfl⟩
    · cases hg'
  obtain ⟨hfd, hbelow, rfl⟩ := hlow
  have hin : InTable (fd : Int) := inTable_iff.2 hfd
  have hset : (s.setTable k { t with nextFd := fd + 1 }).files k = some { t with nextFd := fd + 1 } :=
    Function.update_self ..
  have hk : (fdInstall (s.setTable k { t with nextFd := fd + 1 }) k fd f).files k =
      some (({ t with nextFd := fd + 1 } : FilesStruct).set fd { t.fdArray fd with file := some f }) := by
    unfold fdInstall
    rw [if_pos hin, setSlot_eq hset, entry_setTable]
    exact Function.update_self ..
  refine ⟨fun u hu => .inl fun j hj => ?_, _, hk, hfd⟩
  rw [hk] at hu
  cases hu
  rw [Used, entry_eq hk]
  by_cases hjf : (j : Int) = fd
  · rw [hjf]
    simp [FilesStruct.set]
  · have hu := hbelow j (by have : j < fd + 1 := hj; omega)
    rw [Used, entry_eq ht] at hu
    simpa [FilesStruct.set, hjf] using hu

/-! ## Steps -/

/-- No hint is beyond the table. -/
def Hinted (s : State) : Prop := ∀ k, ∀ t ∈ s.files k, t.nextFd ≤ maxFds

variable {a : Label} {x : State}

theorem hintOk_congr (h : x.files = s.files) : HintOk x k ↔ HintOk s k := by
  unfold HintOk Used State.entry
  rw [h]

/-- A step that searches once, in a table no one has changed. -/
theorem law_iff_of_one (hs : Hinted s) (hl : s.Live (caller a)) (hx : searches s a = [x]) (hf : x.files = s.files) :
    Law s a ↔ HintHolds s a := by
  obtain ⟨t, ht⟩ := Option.isSome_iff_exists.1 hl.1
  have h := (lowest_iff (s := x) (hf ▸ ht) (hs _ t ht)).trans (hintOk_congr hf)
  simp only [Law, HintHolds, hx, List.forall_mem_singleton, ne_eq, List.cons_ne_nil, not_false_eq_true, true_imp_iff, h]

theorem law_iff_of_none (hx : searches s a = []) : Law s a ↔ HintHolds s a := by
  simp only [Law, HintHolds, hx, ne_eq, not_true_eq_false, false_imp_iff, iff_true]
  exact fun x hx => nomatch hx

/-- The second search of `do_pipe` finds the hint in order if the first does. -/
theorem law_pipe {pi rf wf : Nat} (hs : Hinted s) (hl : s.Live k) :
    Law s (.call (.pipe k (some pi) (some rf) (some wf))) ↔
      HintHolds s (.call (.pipe k (some pi) (some rf) (some wf))) := by
  obtain ⟨t, ht⟩ := Option.isSome_iff_exists.1 hl.1
  have hf : (pipeMade s pi rf wf).files = s.files := rfl
  have ht' : (pipeMade s pi rf wf).files k = some t := hf ▸ ht
  cases hg : getUnusedFd (pipeMade s pi rf wf) k with
  | mk r s1 =>
    cases r with
    | none =>
      exact law_iff_of_one (a := .call (.pipe k (some pi) (some rf) (some wf))) hs hl (by simp only [searches, hg]) hf
    | some rfd =>
      have hx : searches s (.call (.pipe k (some pi) (some rf) (some wf))) =
          [pipeMade s pi rf wf, fdInstall s1 k rfd rf] := by
        simp only [searches, hg]
      have h1 := (lowest_iff ht' (hs k t ht)).trans (hintOk_congr hf)
      have h2 : HintOk s k → Lowest (fdInstall s1 k rfd rf) k (getUnusedFd (fdInstall s1 k rfd rf) k).1 := by
        intro hok
        obtain ⟨hok2, t2, ht2, hn2⟩ := hintOk_fdInstall ht' (hs k t ht) hg ((hintOk_congr hf).2 hok) rf
        exact (lowest_iff ht2 hn2).2 hok2
      simp only [Law, HintHolds, hx, caller, ne_eq, List.cons_ne_nil, not_false_eq_true, true_imp_iff]
      refine ⟨fun h => h1.1 (h _ List.mem_cons_self), fun hok x hmem => ?_⟩
      rcases List.mem_cons.1 hmem with rfl | hmem
      · exact h1.2 hok
      · obtain rfl := List.mem_singleton.1 hmem
        exact h2 hok

theorem fget_files (s : State) (k : Nat) (fd : Int) : (fget s k fd).2.files = s.files := by
  rw [fget_eq]
  cases s.lookup k fd <;> rfl

/-- **A step obeys the law exactly when it finds the hint in order.** -/
theorem law_iff (hs : Hinted s) (h : step s a = some s') : Law s a ↔ HintHolds s a := by
  cases a with
  | socket k file => exact law_iff_of_one hs (when_some h).1.1 rfl rfl
  | epollCreate k file => exact law_iff_of_one hs (when_some h).1.1 rfl rfl
  | call l =>
    cases l with
    | opn k new =>
      cases new with
      | none => exact law_iff_of_none rfl
      | some f => exact law_iff_of_one hs (when_some h).1.1 rfl rfl
    | dup k oldfd =>
      cases hf : fget s k oldfd with
      | mk r s1 =>
        cases r with
        | none => exact law_iff_of_none (by simp only [searches, hf])
        | some f =>
          have hfiles : s1.files = s.files := by rw [← fget_files s k oldfd, hf]
          exact law_iff_of_one hs (when_some h).1 (by simp only [searches, hf]) hfiles
    | pipe k pi rf wf =>
      match pi, rf, wf with
      | some pi, some rf, some wf => exact law_pipe hs (when_some h).1.1
      | none, _, _ | some _, none, _ | some _, some _, none => exact law_iff_of_none rfl
    | _ => exact law_iff_of_none rfl

/-! ## The hint stays within the table -/

theorem Hinted.congr (h : Hinted s) (hf : x.files = s.files) : Hinted x := by
  unfold Hinted
  rw [hf]
  exact h

theorem Hinted.setTable (h : Hinted s) (ht : t.nextFd ≤ maxFds) : Hinted (s.setTable k t) := by
  intro j u hu
  by_cases hj : j = k
  · subst hj
    simp only [State.setTable, Function.update_self, Option.mem_some_iff] at hu
    exact hu ▸ ht
  · simp only [State.setTable, Function.update_of_ne hj] at hu
    exact h j u hu

theorem Hinted.setSlot (h : Hinted s) (k : Nat) (i : Int) (e : FdEntry) : Hinted (s.setSlot k i e) := by
  unfold State.setSlot
  cases ht : s.files k with
  | none => exact h
  | some t => exact h.setTable (t := t.set i e) (h k t ht)

theorem Hinted.getUnusedFd (h : Hinted s) (k : Nat) : Hinted (Files.getUnusedFd s k).2 := by
  cases ht : s.files k with
  | none => rwa [Files.getUnusedFd, ht]
  | some t =>
    rcases getUnusedFd_cases ht (h k t ht) with ⟨i, hg, hi, -⟩ | ⟨hg, -⟩ <;> rw [hg]
    · exact h.setTable hi
    · exact h

theorem Hinted.fdInstall (h : Hinted s) (k : Nat) (fd : Int) (f : Nat) : Hinted (Files.fdInstall s k fd f) := by
  unfold Files.fdInstall
  split
  · exact h.setSlot k fd _
  · exact h

theorem Hinted.fget (h : Hinted s) (k : Nat) (fd : Int) : Hinted (Files.fget s k fd).2 := h.congr (fget_files s k fd)

theorem Hinted.doClose (h : Hinted s) (k : Nat) (fd : Int) : Hinted (Files.doClose s k fd).2 := by
  unfold Files.doClose
  split
  · split
    · exact h.setSlot k fd _
    · exact (h.setSlot k fd _).congr rfl
  · exact h

theorem Hinted.sysOpen (h : Hinted s) (k : Nat) (new : Option Nat) : Hinted (Files.sysOpen s k new).2 := by
  unfold Files.sysOpen
  cases new with
  | none => exact h
  | some f =>
    have hg := (h.congr (x := s.newFile f none) rfl).getUnusedFd k
    dsimp only
    generalize Files.getUnusedFd (s.newFile f none) k = r at hg ⊢
    obtain ⟨_ | fd, s1⟩ := r
    · exact hg.congr (filpClose_files s1 f)
    · exact hg.fdInstall k fd f

theorem Hinted.sysDup (h : Hinted s) (k : Nat) (oldfd : Int) : Hinted (Files.sysDup s k oldfd).2 := by
  have hf := h.fget k oldfd
  unfold Files.sysDup
  generalize Files.fget s k oldfd = r at hf ⊢
  obtain ⟨_ | f, s1⟩ := r
  · exact hf
  · have hg := Hinted.getUnusedFd hf k
    dsimp only at hg ⊢
    generalize Files.getUnusedFd s1 k = r at hg ⊢
    obtain ⟨_ | fd, s2⟩ := r
    · exact hg.congr rfl
    · exact hg.fdInstall k fd f

theorem Hinted.sysDup2 (h : Hinted s) (k : Nat) (oldfd newfd : Int) : Hinted (Files.sysDup2 s k oldfd newfd).2 := by
  have hf := h.fget k oldfd
  unfold Files.sysDup2
  generalize Files.fget s k oldfd = r at hf ⊢
  obtain ⟨_ | f, s1⟩ := r
  · split <;> exact hf
  · have hf : Hinted s1 := hf
    split
    · exact hf.congr rfl
    · dsimp only
      split
      · exact hf.congr rfl
      · refine Hinted.setSlot ?_ k newfd _
        unfold closeExisting
        have hg := hf.fget k newfd
        generalize Files.fget s1 k newfd = r at hg ⊢
        obtain ⟨_ | g, s2⟩ := r
        · exact hg
        · exact (hg.congr (x := fput s2 g) rfl).doClose k newfd

theorem Hinted.sysDup3 (h : Hinted s) (k : Nat) (oldfd newfd : Int) (cloexec : Bool) :
    Hinted (Files.sysDup3 s k oldfd newfd cloexec).2 := by
  have h2 := h.sysDup2 k oldfd newfd
  unfold Files.sysDup3
  split
  · exact h
  · dsimp only
    split
    · exact h2
    · split
      · exact h2.setSlot k newfd _
      · exact h2

theorem Hinted.sysDupfd (h : Hinted s) (k : Nat) (fd arg : Int) (cloexec : Bool) :
    Hinted (Files.sysDupfd s k fd arg cloexec).2 := by
  unfold Files.sysDupfd
  split
  · exact h
  · split
    · exact h
    · split
      · exact h
      · exact (h.setSlot k _ _).congr rfl

theorem Hinted.sysSetfd (h : Hinted s) (k : Nat) (fd : Int) (cloexec : Bool) :
    Hinted (Files.sysSetfd s k fd cloexec).2 := by
  unfold Files.sysSetfd
  split
  · exact h
  · split
    · exact h
    · exact h.setSlot k fd _

theorem Hinted.doPipe (h : Hinted s) (k : Nat) (pi rf wf : Option Nat) : Hinted (Files.doPipe s k pi rf wf).2 := by
  match pi, rf, wf with
  | none, _, _ | some _, none, _ | some _, some _, none => exact h
  | some pi, some rf, some wf =>
    have hg := (h.congr (x := pipeMade s pi rf wf) rfl).getUnusedFd k
    simp only [Files.doPipe]
    rw [show State.newFile _ _ _ = pipeMade s pi rf wf from rfl]
    generalize Files.getUnusedFd (pipeMade s pi rf wf) k = r at hg ⊢
    obtain ⟨_ | rfd, s1⟩ := r
    · exact hg.congr rfl
    · have hg2 := (Hinted.fdInstall hg k rfd rf).getUnusedFd k
      dsimp only at hg2 ⊢
      generalize Files.getUnusedFd (Files.fdInstall s1 k rfd rf) k = r at hg2 ⊢
      obtain ⟨_ | wfd, s2⟩ := r
      · exact (Hinted.doClose hg2 k rfd).congr rfl
      · exact hg2.fdInstall k wfd wf

theorem Hinted.filesCopy (h : Hinted s) (k : Nat) (mem : Bool) (junk : Int → FdEntry) :
    Hinted (Files.filesCopy s k mem junk) := by
  unfold Files.filesCopy
  cases ht : s.files k with
  | none => exact h
  | some t =>
    dsimp only
    split
    · exact h.congr rfl
    · exact (h.setTable (k := s.ntasks) (t := t.copy junk) (h k t ht)).congr rfl

theorem Hinted.foldl (f : State → Nat → State) (hf : ∀ s n, Hinted s → Hinted (f s n)) :
    ∀ (l : List Nat) {s : State}, Hinted s → Hinted (l.foldl f s)
  | [], _, h => h
  | n :: l, _, h => Hinted.foldl f hf l (hf _ n h)

theorem Hinted.execClose (h : Hinted s) (k : Nat) : Hinted (Files.execClose s k) := by
  refine Hinted.foldl _ (fun s n h => ?_) _ h
  unfold Files.execSlot
  split
  · exact h
  · split
    · exact (h.congr (filpClose_files s _)).setSlot k n _
    · exact h

theorem Hinted.exitClose (h : Hinted s) (k : Nat) : Hinted (Files.exitClose s k) := by
  refine Hinted.foldl _ (fun s n h => ?_) _ h
  unfold Files.exitSlot
  split
  · exact h
  · exact (h.congr (x := fput s _) rfl).setSlot k n _

theorem Hinted.filesFree (h : Hinted s) (k : Nat) : Hinted (Files.filesFree s k) := by
  intro j u hu
  by_cases hj : j = k
  · subst hj
    simp only [Files.filesFree, Function.update_self] at hu
    cases hu
  · simp only [Files.filesFree, Function.update_of_ne hj] at hu
    exact h j u hu

theorem Hinted.bury (h : Hinted s) (k : Nat) : Hinted (s.bury k) := h.congr rfl

theorem Hinted.call (h : Hinted s) {l : Files.Label} (hs : fileStep s l = some s') : Hinted s' := by
  cases l with
  | opn k new => obtain ⟨-, rfl⟩ := when_some hs; exact h.sysOpen k new
  | close k fd => obtain ⟨-, rfl⟩ := when_some hs; exact h.doClose k fd
  | dup k oldfd => obtain ⟨-, rfl⟩ := when_some hs; exact h.sysDup k oldfd
  | dup2 k oldfd newfd => obtain ⟨-, rfl⟩ := when_some hs; exact h.sysDup2 k oldfd newfd
  | dup3 k oldfd newfd cloexec => obtain ⟨-, rfl⟩ := when_some hs; exact h.sysDup3 k oldfd newfd cloexec
  | dupfd k fd arg cloexec => obtain ⟨-, rfl⟩ := when_some hs; exact h.sysDupfd k fd arg cloexec
  | setfd k fd cloexec => obtain ⟨-, rfl⟩ := when_some hs; exact h.sysSetfd k fd cloexec
  | pipe k pi rf wf => obtain ⟨-, rfl⟩ := when_some hs; exact h.doPipe k pi rf wf
  | fork k mem junk => obtain ⟨-, rfl⟩ := when_some hs; exact h.filesCopy k mem junk
  | exec k => obtain ⟨-, he⟩ := when_some (s := Files.execClose s k) hs; rw [he]; exact h.execClose k
  | exit k => obtain ⟨-, he⟩ := when_some (s := (Files.exitClose s k).bury k) hs; rw [he]; exact (h.exitClose k).bury k
  | taskExit k => obtain ⟨-, rfl⟩ := when_some hs; exact (h.filesFree k).bury k
  | reap k =>
    obtain ⟨-, he⟩ := when_some (s := Files.filesFree (Files.exitClose s k) k) hs
    rw [he]
    exact (h.exitClose k).filesFree k
  | fget k fd =>
    obtain ⟨-, rfl⟩ := when_some hs
    have hf := h.fget k fd
    generalize Files.fget s k fd = r at hf ⊢
    obtain ⟨_ | f, s1⟩ := r
    · exact hf
    · exact hf.congr rfl
  | fput f => obtain ⟨-, rfl⟩ := when_some hs; exact h.congr rfl

theorem Hinted.putUnusedFd (h : Hinted s) (k : Nat) (fd : Int) : Hinted (putUnusedFd s k fd) := by
  unfold FdLowest.putUnusedFd
  split
  · cases ht : s.files k with
    | none => exact h
    | some t =>
      have := h k t ht
      refine h.setTable ?_
      dsimp only
      split <;> omega
  · exact h

theorem Hinted.step (h : Hinted s) (hs : step s a = some s') : Hinted s' := by
  cases a with
  | call l => exact h.call hs
  | socket k file =>
    obtain ⟨-, rfl⟩ := when_some hs
    have hg := h.getUnusedFd k
    unfold socketAllocFd
    generalize Files.getUnusedFd s k = r at hg ⊢
    obtain ⟨_ | fd, s1⟩ := r
    · exact hg
    · cases file with
      | none => exact hg
      | some f => exact (hg.congr (x := s1.newFile f none) rfl).fdInstall k fd f
  | epollCreate k file =>
    obtain ⟨-, rfl⟩ := when_some hs
    have hg := h.getUnusedFd k
    unfold sysEpollCreate
    generalize Files.getUnusedFd s k = r at hg ⊢
    obtain ⟨_ | fd, s1⟩ := r
    · exact hg
    · cases file with
      | none => exact Hinted.putUnusedFd hg k fd
      | some f => exact (hg.congr (x := s1.newFile f none) rfl).fdInstall k fd f

theorem Hinted.init (h : machine.init s) : Hinted s := by
  obtain ⟨-, -, -, -, hfiles, -, t, ht, hnext, -⟩ := h
  intro k u hu
  cases k with
  | zero =>
    obtain rfl := Option.some.inj (ht.symm.trans hu)
    rw [hnext]
    exact Nat.zero_le _
  | succ k => nomatch (hfiles (k + 1) (Nat.succ_pos k)).symm.trans hu

/-- **The lowest free descriptor is found throughout a run exactly when every search finds the hint in order.** -/
theorem lowest_iff_runOk (l : List Label) (s s' : State) (h0 : machine.init s) :
    machine.RunOk Law s l s' ↔ machine.RunOk HintHolds s l s' :=
  machine.runOk_iff_step (I := Hinted) (fun _ _ _ hs h => law_iff hs h) (fun _ _ _ hs _ h => hs.step h) l s s' (.init h0)

/-- A file, a copy of it, a pipe and a socket, and a child that goes on with the hint. -/
def forkCalls : List Label :=
  [.call (.opn 0 (some 7)), .call (.dup 0 0), .call (.pipe 0 (some 1) (some 8) (some 9)), .socket 0 (some 10),
    .call (.fork 0 true fun _ => .empty), .call (.opn 1 (some 11))]

theorem lowest_iff_runOk_fork : ∃ s, machine.RunOk Law boot forkCalls s := by
  have hrun : (machine.check HintHolds boot forkCalls).isSome = true := by decide +kernel
  obtain ⟨s, hs⟩ := Option.isSome_iff_exists.1 hrun
  exact ⟨s, (lowest_iff_runOk forkCalls boot s boot_init).2 (machine.runOk_of_check hs)⟩

/-- Two files opened, and the first closed again. -/
def firstClosed : State := (doClose (sysOpen (sysOpen boot 0 (some 7)).2 0 (some 8)).2 0 0).2

/-- The next file gets descriptor 2, although 0 is free. -/
theorem not_lowest :
    (machine.init boot ∧ machine.run boot [.call (.opn 0 (some 7)), .call (.opn 0 (some 8)), .call (.close 0 0)] =
      some firstClosed) ∧
    (sysOpen firstClosed 0 (some 9)).1 = some 2 ∧ ¬Used firstClosed 0 0 ∧ ¬Law firstClosed (.call (.opn 0 (some 9))) := by
  refine ⟨⟨boot_init, rfl⟩, by decide +kernel, by decide +kernel, fun h => ?_⟩
  have hl := h (firstClosed.newFile 9 none) List.mem_cons_self
  have hg : (getUnusedFd (firstClosed.newFile 9 none) 0).1 = some 2 := by decide +kernel
  rw [show caller (.call (.opn 0 (some 9))) = 0 from rfl, hg] at hl
  exact absurd (hl.2.2 0 (by decide)) (by decide +kernel)

end FdLowest
end Pico
