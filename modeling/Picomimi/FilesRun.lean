import Picomimi.Files
/-!
# FilesRun — when a `file_t` lives as long as its holders

The references to `file_t`s are the entries of the tables and what `fget` gave to calls in progress (`State.refs`).  A
call's own reference is a further one while the call runs: `Inv s loc` counts those of the list `loc` as well, and every
step of a call moves a reference between a table, `loc` and the counts.  Close-on-exec frees whatever the count,
`task_exit` drops a table without its references, and `dup2` and `F_DUPFD` store beyond the table; the counts are right
throughout a run exactly when none of these happens (`tracked_iff_of_run`).
-/
namespace Pico
namespace Files

open Lib

def State.slotsOf (s : State) (k : Nat) : List Nat :=
  match s.files k with
  | none => []
  | some t => t.slots

/-- The references to `file_t`s: those in the tables, and those in flight. -/
def State.refs (s : State) : List Nat := gather s.slotsOf s.ntasks ++ s.inflight

/-- **A `file_t` lives as long as its holders**: it is allocated when a descriptor or a call holds it, its count is the
number of those holders, and nothing has touched one that was freed. -/
def Tracked (s : State) : Prop := s.pool.Balanced s.refs

/-- **The books, with the references of `loc` besides.** -/
structure Inv (s : State) (loc : List Nat) : Prop where
  bal : s.pool.Balanced (loc ++ s.refs)
  bound : ∀ k, s.ntasks ≤ k → s.files k = none
  next : ∀ k t, s.files k = some t → t.nextFd ≤ maxFds

variable {s s' : State} {t t' : FilesStruct} {k : Nat} {i fd : Int} {e : FdEntry} {f : Nat} {loc loc' : List Nat}

theorem inTable_iff {n : Nat} : InTable (n : Int) ↔ n < maxFds := by
  unfold InTable
  omega

theorem InTable.exists_nat (h : InTable i) : ∃ n : Nat, i = n ∧ n < maxFds := by
  obtain ⟨n, rfl⟩ := Int.eq_ofNat_of_zero_le h.1
  exact ⟨n, rfl, inTable_iff.1 h⟩

/-! ## Tables -/

theorem mem_slots : f ∈ t.slots ↔ ∃ i, InTable i ∧ (t.fdArray i).file = some f := by
  unfold FilesStruct.slots
  rw [mem_gather]
  constructor
  · rintro ⟨n, hn, hf⟩
    exact ⟨n, inTable_iff.2 hn, Option.mem_toList.1 hf⟩
  · rintro ⟨i, hi, hf⟩
    obtain ⟨n, rfl, hn⟩ := hi.exists_nat
    exact ⟨n, hn, Option.mem_toList.2 hf⟩

/-- **Storing an entry** swaps its reference for the old one's. -/
theorem slots_set (hi : InTable i) (e : FdEntry) :
    (e.file.toList ++ t.slots).Perm ((t.fdArray i).file.toList ++ (t.set i e).slots) := by
  obtain ⟨n, rfl, hn⟩ := hi.exists_nat
  unfold FilesStruct.slots
  have hne : ∀ j, j < maxFds → j ≠ n → ((t.set n e).fdArray j).file.toList = (t.fdArray j).file.toList := by
    intro j _ hj
    have hj' : (j : Int) ≠ n := fun hc => hj (Int.ofNat_inj.1 hc)
    simp only [FilesStruct.set, Function.update_of_ne hj']
  have hnew : (t.set n e).fdArray n = e := Function.update_self _ _ _
  have h := gather_set hn hne
  rw [hnew] at h
  exact h.symm

theorem slots_set_out (hi : ¬InTable i) (e : FdEntry) : (t.set i e).slots = t.slots := by
  unfold FilesStruct.slots
  apply gather_congr
  intro j hj
  have hne : (j : Int) ≠ i := by
    rintro rfl
    exact hi (inTable_iff.2 hj)
  simp only [FilesStruct.set, Function.update_of_ne hne]

theorem slots_congr (h : ∀ i, InTable i → (t'.fdArray i).file = (t.fdArray i).file) : t'.slots = t.slots := by
  unfold FilesStruct.slots
  exact gather_congr fun j hj => by simp only [h j (inTable_iff.2 hj)]

theorem slotsOf_eq (h : s.files k = some t) : s.slotsOf k = t.slots := by
  unfold State.slotsOf
  rw [h]

/-- Another table for a task. -/
theorem refs_setTable (hb : ∀ k, s.ntasks ≤ k → s.files k = none) (h : s.files k = some t) (t' : FilesStruct) :
    (t'.slots ++ s.refs).Perm (t.slots ++ (s.setTable k t').refs) := by
  have hk : k < s.ntasks := by
    by_contra hc
    rw [hb k (Nat.le_of_not_lt hc)] at h
    cases h
  have hother : ∀ j, j < s.ntasks → j ≠ k → (s.setTable k t').slotsOf j = s.slotsOf j := fun j _ hj => by
    simp only [State.slotsOf, State.setTable, Function.update_of_ne hj]
  have hg := gather_set hk hother
  have hnew : (s.setTable k t').slotsOf k = t'.slots := slotsOf_eq (Function.update_self _ _ _)
  rw [slotsOf_eq h, hnew] at hg
  unfold State.refs
  rw [← List.append_assoc, ← List.append_assoc]
  exact hg.symm.append_right _

@[simp] theorem entry_setTable : (s.setTable k t).entry k i = t.fdArray i := by
  simp only [State.entry, State.setTable, Function.update_self]

theorem entry_eq (h : s.files k = some t) (i : Int) : s.entry k i = t.fdArray i := by
  unfold State.entry
  rw [h]

theorem setSlot_eq (h : s.files k = some t) (i : Int) (e : FdEntry) : s.setSlot k i e = s.setTable k (t.set i e) := by
  unfold State.setSlot
  rw [h]

theorem isSome_setSlot (h : (s.files k).isSome) : ((s.setSlot k i e).files k).isSome := by
  obtain ⟨t, ht⟩ := Option.isSome_iff_exists.1 h
  rw [setSlot_eq ht]
  simp only [State.setTable, Function.update_self, Option.isSome_some]

theorem entry_setSlot (h : (s.files k).isSome) (j : Int) :
    (s.setSlot k i e).entry k j = if j = i then e else s.entry k j := by
  obtain ⟨t, ht⟩ := Option.isSome_iff_exists.1 h
  rw [setSlot_eq ht, entry_setTable, entry_eq ht]
  exact Function.update_apply _ _ _ _

@[simp] theorem setSlot_pool : (s.setSlot k i e).pool = s.pool := by
  unfold State.setSlot
  split <;> rfl

@[simp] theorem setSlot_inflight : (s.setSlot k i e).inflight = s.inflight := by
  unfold State.setSlot
  split <;> rfl

/-- A file in a table is referred to. -/
theorem mem_refs_of_entry (hb : ∀ k, s.ntasks ≤ k → s.files k = none) (hi : InTable i)
    (hf : (s.entry k i).file = some f) : f ∈ s.refs := by
  cases ht : s.files k with
  | none =>
    unfold State.entry at hf
    rw [ht] at hf
    cases hf
  | some t =>
    have hk : k < s.ntasks := by
      by_contra hc
      rw [hb k (Nat.le_of_not_lt hc)] at ht
      cases ht
    rw [entry_eq ht] at hf
    exact List.mem_append_left _ (mem_gather.2 ⟨k, hk, slotsOf_eq ht ▸ mem_slots.2 ⟨i, hi, hf⟩⟩)

/-! ## One step of a call -/

theorem Inv.perm (h : Inv s loc) (hp : loc.Perm loc') : Inv s loc' :=
  ⟨h.bal.perm (hp.append_right _), h.bound, h.next⟩

/-- **Another table for a task**, when the call's references make up for the difference. -/
theorem Inv.withTable (h : Inv s loc) (ht : s.files k = some t) (hs : (loc' ++ t'.slots).Perm (loc ++ t.slots))
    (hn : t'.nextFd ≤ maxFds) : Inv (s.setTable k t') loc' := by
  refine ⟨h.bal.perm ((List.perm_append_left_iff t'.slots).1 ?_), fun j hj => ?_, fun j u hu => ?_⟩
  · calc t'.slots ++ (loc ++ s.refs)
      _ |>.Perm (loc ++ (t'.slots ++ s.refs)) := List.perm_append_comm_assoc _ _ _
      _ |>.Perm (loc ++ (t.slots ++ (s.setTable k t').refs)) := (refs_setTable h.bound ht t').append_left _
      _ |>.Perm (loc' ++ t'.slots ++ (s.setTable k t').refs) := by
          rw [← List.append_assoc]
          exact hs.symm.append_right _
      _ |>.Perm (t'.slots ++ (loc' ++ (s.setTable k t').refs)) := by
          rw [List.append_assoc]
          exact List.perm_append_comm_assoc _ _ _
  · have hne : j ≠ k := by
      rintro rfl
      rw [h.bound j hj] at ht
      cases ht
    simp only [State.setTable, Function.update_of_ne hne]
    exact h.bound j hj
  · by_cases hjk : j = k
    · subst hjk
      simp only [State.setTable, Function.update_self, Option.some.injEq] at hu
      exact hu ▸ hn
    · simp only [State.setTable, Function.update_of_ne hjk] at hu
      exact h.next j u hu

/-- **A store to an entry** takes the new file's reference from the call and leaves it the old file's. -/
theorem Inv.setSlot (h : Inv s (e.file.toList ++ loc)) (hk : (s.files k).isSome) (hi : InTable i) :
    Inv (s.setSlot k i e) ((s.entry k i).file.toList ++ loc) := by
  obtain ⟨t, ht⟩ := Option.isSome_iff_exists.1 hk
  rw [setSlot_eq ht, entry_eq ht]
  refine h.withTable ht ?_ (h.next k t ht)
  calc (t.fdArray i).file.toList ++ loc ++ (t.set i e).slots
    _ |>.Perm (loc ++ ((t.fdArray i).file.toList ++ (t.set i e).slots)) := by
        rw [List.append_assoc]
        exact List.perm_append_comm_assoc _ _ _
    _ |>.Perm (loc ++ (e.file.toList ++ t.slots)) := (slots_set hi e).symm.append_left _
    _ |>.Perm (e.file.toList ++ loc ++ t.slots) := by
        rw [List.append_assoc]
        exact List.perm_append_comm_assoc _ _ _

theorem Inv.setSlot_out (h : Inv s loc) (hk : (s.files k).isSome) (hi : ¬InTable i) : Inv (s.setSlot k i e) loc := by
  obtain ⟨t, ht⟩ := Option.isSome_iff_exists.1 hk
  rw [setSlot_eq ht]
  exact h.withTable ht (by rw [slots_set_out hi]) (h.next k t ht)

/-- A change of the counts alone. -/
theorem Inv.withPool (h : Inv s loc) {p : Pool} (hp : p.Balanced (loc' ++ s.refs)) : Inv { s with pool := p } loc' :=
  ⟨hp, h.bound, h.next⟩

theorem Inv.incFile (h : Inv s loc) (hf : f ∈ loc ++ s.refs) : Inv (s.incFile f) (f :: loc) := h.withPool (h.bal.inc hf)

theorem Inv.fput (h : Inv s (f :: loc)) : Inv (Files.fput s f) loc := h.withPool h.bal.dec

theorem Inv.newFile (h : Inv s loc) (hf : s.NewFile f) (kind : Option (PipeEnd × Nat)) :
    Inv (s.newFile f kind) (f :: loc) :=
  ⟨h.bal.alloc hf, h.bound, h.next⟩

theorem Inv.kfreeFile (h : Inv s (f :: loc)) (hf : f ∉ loc ++ s.refs) : Inv (s.kfreeFile f) loc :=
  h.withPool (h.bal.free hf)

theorem lookup_eq_some (h : s.lookup k fd = some f) : InTable fd ∧ (s.entry k fd).file = some f := by
  unfold State.lookup at h
  by_cases hi : InTable fd
  · rw [if_pos hi] at h
    exact ⟨hi, h⟩
  · rw [if_neg hi] at h
    cases h

theorem Inv.lookup_mem (h : Inv s loc) (hf : s.lookup k fd = some f) : f ∈ loc ++ s.refs :=
  List.mem_append_right _ (mem_refs_of_entry h.bound (lookup_eq_some hf).1 (lookup_eq_some hf).2)

theorem fget_eq (s : State) (k : Nat) (fd : Int) :
    fget s k fd = (s.lookup k fd, match s.lookup k fd with | none => s | some f => s.incFile f) := by
  unfold fget
  cases s.lookup k fd <;> rfl

theorem firstUnused_spec : ∀ {n i j : Nat}, firstUnused t n i = some j → i ≤ j ∧ j < i + n ∧ (t.fdArray j).file = none
  | n + 1, i, j, h => by
    unfold firstUnused at h
    by_cases hi : (t.fdArray i).file = none
    · rw [if_pos hi] at h
      cases h
      exact ⟨Nat.le_refl i, by omega, hi⟩
    · rw [if_neg hi] at h
      obtain ⟨h1, h2, h3⟩ := firstUnused_spec h
      exact ⟨by omega, by omega, h3⟩

/-- **`get_unused_fd` returns an empty entry of the table**, and changes only the hint. -/
theorem Inv.getUnusedFd (h : Inv s loc) {fd : Nat} (hg : Files.getUnusedFd s k = (some fd, s')) :
    Inv s' loc ∧ InTable fd ∧ (s'.entry k fd).file = none ∧ (s'.files k).isSome ∧ s'.pool = s.pool ∧ s'.refs.Perm s.refs := by
  unfold Files.getUnusedFd at hg
  cases ht : s.files k with
  | none =>
    rw [ht] at hg
    cases hg
  | some t =>
    simp only [ht] at hg
    have hnext := h.next k t ht
    obtain ⟨hlt, hempty, rfl⟩ : fd < maxFds ∧ (t.fdArray fd).file = none ∧ s' = s.setTable k { t with nextFd := fd + 1 } := by
      cases h1 : firstUnused t (maxFds - t.nextFd) t.nextFd with
      | some j =>
        rw [h1] at hg
        cases hg
        obtain ⟨-, hj, he⟩ := firstUnused_spec h1
        exact ⟨by omega, he, rfl⟩
      | none =>
        simp only [h1] at hg
        cases h2 : firstUnused t t.nextFd 0 with
        | none =>
          rw [h2] at hg
          cases hg
        | some j =>
          rw [h2] at hg
          cases hg
          obtain ⟨-, hj, he⟩ := firstUnused_spec h2
          exact ⟨by omega, he, rfl⟩
    have hs : ({ t with nextFd := fd + 1 } : FilesStruct).slots = t.slots := slots_congr fun _ _ => rfl
    refine ⟨h.withTable ht (by rw [hs]) hlt, inTable_iff.2 hlt, ?_, ?_, rfl, ?_⟩
    · rw [entry_setTable]
      exact hempty
    · simp only [State.setTable, Function.update_self, Option.isSome_some]
    · have hp := refs_setTable h.bound ht { t with nextFd := fd + 1 }
      rw [hs] at hp
      exact ((List.perm_append_left_iff _).1 hp).symm

theorem getUnusedFd_none (hg : getUnusedFd s k = (none, s')) : s' = s := by
  unfold getUnusedFd at hg
  cases ht : s.files k with
  | none =>
    rw [ht] at hg
    cases hg
    rfl
  | some t =>
    simp only [ht] at hg
    cases h1 : firstUnused t (maxFds - t.nextFd) t.nextFd with
    | some j =>
      rw [h1] at hg
      cases hg
    | none =>
      simp only [h1] at hg
      cases h2 : firstUnused t t.nextFd 0 with
      | none =>
        rw [h2] at hg
        cases hg
        rfl
      | some j =>
        rw [h2] at hg
        cases hg

/-- Into an empty entry. -/
theorem Inv.fdInstall (h : Inv s (f :: loc)) (hk : (s.files k).isSome) (hi : InTable fd)
    (he : (s.entry k fd).file = none) : Inv (Files.fdInstall s k fd f) loc := by
  unfold Files.fdInstall
  rw [if_pos hi]
  have hset := Inv.setSlot (e := { s.entry k fd with file := some f }) h hk hi
  rwa [he] at hset

theorem Inv.doClose (h : Inv s loc) (hk : (s.files k).isSome) : Inv (Files.doClose s k fd).2 loc := by
  unfold Files.doClose
  by_cases hi : InTable fd
  · rw [if_pos hi]
    have hset := Inv.setSlot (e := .empty) h hk hi
    cases hf : (s.entry k fd).file with
    | none =>
      rw [hf] at hset
      exact hset
    | some f =>
      rw [hf] at hset
      exact hset.fput
  · rw [if_neg hi]
    exact h

theorem setSlot_incFile (s : State) : (s.setSlot k i e).incFile f = (s.incFile f).setSlot k i e := by
  unfold State.setSlot State.incFile
  dsimp only
  split <;> rfl

theorem setSlot_fput (s : State) : (fput s f).setSlot k i e = fput (s.setSlot k i e) f := by
  unfold State.setSlot fput
  dsimp only
  split <;> rfl

/-- The same file, with other flags. -/
theorem Inv.setFlags (h : Inv s loc) (hk : (s.files k).isSome) (he : e.file = (s.entry k i).file) :
    Inv (s.setSlot k i e) loc := by
  obtain ⟨t, ht⟩ := Option.isSome_iff_exists.1 hk
  rw [entry_eq ht] at he
  rw [setSlot_eq ht]
  refine h.withTable ht ?_ (h.next k t ht)
  have hs : (t.set i e).slots = t.slots := by
    apply slots_congr
    intro j _
    by_cases hj : j = i
    · subst hj
      simp only [FilesStruct.set, Function.update_self, he]
    · simp only [FilesStruct.set, Function.update_of_ne hj]
  rw [hs]

theorem Inv.release (h : Inv s loc) (f : Nat) : Inv (Files.release s f) loc := by
  unfold Files.release pipeRelease
  split
  · exact h
  · split
    · exact h
    · exact ⟨h.bal, h.bound, h.next⟩

theorem release_refs (s : State) (f : Nat) : (release s f).refs = s.refs := by
  unfold release pipeRelease
  split
  · rfl
  · split <;> rfl

/-- **`filp_close` is sound on the last reference.** -/
theorem Inv.filpClose (h : Inv s (f :: loc)) (hf : f ∉ loc ++ s.refs) : Inv (Files.filpClose s f) loc :=
  (h.release f).kfreeFile (by rwa [release_refs])

theorem Inv.not_mem_of_new (h : Inv s loc) (hf : s.NewFile f) : f ∉ loc ++ s.refs := by
  intro hm
  have hs := h.bal.isSome_iff.2 hm
  rw [hf] at hs
  cases hs

/-! ## The calls -/

theorem Inv.sysOpen (h : Inv s loc) {new : Option Nat} (hnew : ∀ f ∈ new, s.NewFile f) : Inv (Files.sysOpen s k new).2 loc := by
  cases new with
  | none => exact h
  | some f =>
    have hf := hnew f rfl
    have h1 := h.newFile hf none
    unfold Files.sysOpen
    dsimp only
    rcases hg : Files.getUnusedFd (s.newFile f none) k with ⟨_ | fd, s₁⟩
    · have heq := getUnusedFd_none hg
      subst heq
      exact h1.filpClose (h.not_mem_of_new hf)
    · obtain ⟨h2, hi, he, hk, -, -⟩ := h1.getUnusedFd hg
      exact h2.fdInstall hk hi he

theorem Inv.sysDup (h : Inv s loc) : Inv (sysDup s k fd).2 loc := by
  unfold Files.sysDup
  rw [fget_eq]
  cases hl : s.lookup k fd with
  | none => exact h
  | some f =>
    have h1 := h.incFile (h.lookup_mem hl)
    dsimp only
    rcases hg : Files.getUnusedFd (s.incFile f) k with ⟨_ | newfd, s₁⟩
    · have heq := getUnusedFd_none hg
      subst heq
      exact h1.fput
    · obtain ⟨h2, hi, he, hk, -, -⟩ := h1.getUnusedFd hg
      exact h2.fdInstall hk hi he

/-- `dup2` stores in the table, or not at all. -/
def Dup2Ok (s : State) (k : Nat) (oldfd newfd : Int) : Prop :=
  oldfd = newfd ∨ s.lookup k oldfd = none ∨ newfd < 0 ∨ maxFdsPerProcess ≤ newfd ∨ InTable newfd

instance (s : State) (k : Nat) (oldfd newfd : Int) : Decidable (Dup2Ok s k oldfd newfd) :=
  inferInstanceAs (Decidable (_ ∨ _ ∨ _ ∨ _ ∨ _))

theorem isSome_doClose (hk : (s.files k).isSome) : ((doClose s k fd).2.files k).isSome := by
  unfold doClose
  split
  · split
    · exact isSome_setSlot hk
    · exact isSome_setSlot hk
  · exact hk

/-- Closing what `newfd` refers to, if anything, empties the entry. -/
theorem Inv.closeExisting (h : Inv s loc) (hk : (s.files k).isSome) (hi : InTable fd) :
    Inv (Files.closeExisting s k fd) loc ∧ ((Files.closeExisting s k fd).files k).isSome ∧
      ((Files.closeExisting s k fd).entry k fd).file = none := by
  unfold Files.closeExisting
  rw [fget_eq]
  cases hl : s.lookup k fd with
  | none =>
    unfold State.lookup at hl
    rw [if_pos hi] at hl
    exact ⟨h, hk, hl⟩
  | some g =>
    have h1 := (h.incFile (h.lookup_mem hl)).fput
    have hentry : ((Files.fput (s.incFile g) g).entry k fd).file = some g := (lookup_eq_some hl).2
    refine ⟨h1.doClose hk, isSome_doClose (s := Files.fput (s.incFile g) g) hk, ?_⟩
    unfold Files.doClose
    dsimp only
    rw [if_pos hi, hentry]
    show (((Files.fput (s.incFile g) g).setSlot k fd .empty).entry k fd).file = none
    rw [entry_setSlot (s := Files.fput (s.incFile g) g) hk, if_pos rfl]
    rfl

/-- **`dup2`**: a reference more for `oldfd`'s file, in the table if `newfd` is, and else lost. -/
theorem Inv.sysDup2 (h : Inv s loc) (hk : (s.files k).isSome) (oldfd newfd : Int) :
    (Dup2Ok s k oldfd newfd → Inv (sysDup2 s k oldfd newfd).2 loc) ∧
      (¬Dup2Ok s k oldfd newfd → ∃ f, Inv (sysDup2 s k oldfd newfd).2 (f :: loc)) := by
  unfold Files.sysDup2 Dup2Ok
  rw [fget_eq]
  by_cases heq : oldfd = newfd
  · rw [if_pos heq]
    refine ⟨fun _ => ?_, fun hn => absurd (.inl heq) hn⟩
    cases hl : s.lookup k oldfd with
    | none => exact h
    | some f => exact (h.incFile (h.lookup_mem hl)).fput
  rw [if_neg heq]
  cases hl : s.lookup k oldfd with
  | none => exact ⟨fun _ => h, fun hn => absurd (.inr (.inl rfl)) hn⟩
  | some f =>
    have h1 := h.incFile (h.lookup_mem hl)
    dsimp only
    by_cases hr : newfd < 0 ∨ maxFdsPerProcess ≤ newfd
    · rw [if_pos hr]
      exact ⟨fun _ => h1.fput, fun hn => absurd (.inr (.inr (hr.imp_right .inl))) hn⟩
    rw [if_neg hr]
    by_cases hi : InTable newfd
    · refine ⟨fun _ => ?_, fun hn => absurd (.inr (.inr (.inr (.inr hi)))) hn⟩
      obtain ⟨h2, hk2, he⟩ := h1.closeExisting hk hi
      have h3 := Inv.setSlot (e := ⟨some f, false⟩) h2 hk2 hi
      rwa [he] at h3
    · -- beyond the table: `fget` sees nothing there, and the store goes elsewhere
      refine ⟨fun hok => ?_, fun _ => ⟨f, ?_⟩⟩
      · rcases hok with hok | hok | hok | hok | hok
        · exact absurd hok heq
        · cases hok
        · exact absurd (.inl hok) hr
        · exact absurd (.inr hok) hr
        · exact absurd hok hi
      · have hnone : (s.incFile f).lookup k newfd = none := by
          unfold State.lookup
          rw [if_neg hi]
        unfold Files.closeExisting
        rw [fget_eq, hnone]
        exact h1.setSlot_out hk hi

theorem isSome_sysDup2 (hk : (s.files k).isSome) (oldfd newfd : Int) :
    ((sysDup2 s k oldfd newfd).2.files k).isSome := by
  unfold sysDup2
  rw [fget_eq]
  by_cases heq : oldfd = newfd
  · rw [if_pos heq]
    cases s.lookup k oldfd <;> exact hk
  rw [if_neg heq]
  cases s.lookup k oldfd with
  | none => exact hk
  | some f =>
    dsimp only
    split
    · exact hk
    · apply isSome_setSlot
      unfold closeExisting
      rw [fget_eq]
      cases (s.incFile f).lookup k newfd with
      | none => exact hk
      | some g => exact isSome_doClose (s := fput ((s.incFile f).incFile g) g) hk

/-- `dup3` is `dup2` and a flag. -/
theorem sysDup3_inv (hk : (s.files k).isSome) {oldfd newfd : Int} {cloexec : Bool} (hne : oldfd ≠ newfd)
    (h : Inv (sysDup2 s k oldfd newfd).2 loc) : Inv (sysDup3 s k oldfd newfd cloexec).2 loc := by
  unfold sysDup3
  rw [if_neg hne]
  dsimp only
  split
  · exact h
  · split
    · exact h.setFlags (isSome_sysDup2 hk oldfd newfd) rfl
    · exact h

theorem Inv.sysSetfd (h : Inv s loc) (hk : (s.files k).isSome) {cloexec : Bool} : Inv (sysSetfd s k fd cloexec).2 loc := by
  unfold Files.sysSetfd
  split
  · exact h
  · split
    · exact h
    · rename_i f hf
      exact h.setFlags hk hf.symm

/-- `F_DUPFD` finds a file that is alive and an entry of the table, or does nothing. -/
def DupfdOk (s : State) (k : Nat) (fd arg : Int) : Prop :=
  fd < 0 ∨ maxFdsPerProcess ≤ fd ∨
    ∀ f ∈ (s.entry k fd).file, ∀ i ∈ dupfdSlot s k arg, InTable i ∧ (s.pool.count f).isSome

instance (s : State) (k : Nat) (fd arg : Int) : Decidable (DupfdOk s k fd arg) :=
  inferInstanceAs (Decidable (_ ∨ _ ∨ _))

theorem dupfdFrom_empty : ∀ {n : Nat} {j : Int}, dupfdFrom s k n j = some i → (s.entry k i).file = none
  | n + 1, j, h => by
    unfold dupfdFrom at h
    by_cases hj : (s.entry k j).file = none
    · rw [if_pos hj] at h
      cases h
      exact hj
    · rw [if_neg hj] at h
      exact dupfdFrom_empty h

/-- **`F_DUPFD`**: a reference more, in the table, lost beyond it, or to a file that is not there. -/
theorem Inv.sysDupfd (h : Inv s []) (hk : (s.files k).isSome) (fd arg : Int) (cloexec : Bool) :
    (DupfdOk s k fd arg → Inv (sysDupfd s k fd arg cloexec).2 []) ∧
      (¬DupfdOk s k fd arg → (sysDupfd s k fd arg cloexec).2.pool.uaf = true ∨
        ∃ f, Inv (sysDupfd s k fd arg cloexec).2 [f]) := by
  unfold Files.sysDupfd DupfdOk
  by_cases hr : fd < 0 ∨ maxFdsPerProcess ≤ fd
  · rw [if_pos hr]
    exact ⟨fun _ => h, fun hn => absurd (hr.imp_right .inl) hn⟩
  rw [if_neg hr]
  cases hf : (s.entry k fd).file with
  | none => exact ⟨fun _ => h, fun hn => absurd (.inr (.inr fun f hm => by cases hm)) hn⟩
  | some f =>
    cases hs : dupfdSlot s k arg with
    | none => exact ⟨fun _ => h, fun hn => absurd (.inr (.inr fun f hm i hi => by cases hi)) hn⟩
    | some i =>
      have hempty := dupfdFrom_empty hs
      dsimp only
      rw [setSlot_incFile]
      have hok : (fd < 0 ∨ maxFdsPerProcess ≤ fd ∨ ∀ g ∈ some f, ∀ j ∈ some i, InTable j ∧ (s.pool.count g).isSome) ↔
          InTable i ∧ (s.pool.count f).isSome := by
        constructor
        · rintro (h1 | h1 | h1)
          · exact absurd (.inl h1) hr
          · exact absurd (.inr h1) hr
          · exact h1 f rfl i rfl
        · intro h1
          refine .inr (.inr fun g hg j hj => ?_)
          cases hg
          cases hj
          exact h1
      rw [hok]
      by_cases hlive : (s.pool.count f).isSome
      · have h1 := h.incFile (h.bal.isSome_iff.1 hlive)
        by_cases hi : InTable i
        · refine ⟨fun _ => ?_, fun hn => absurd ⟨hi, hlive⟩ hn⟩
          have h2 := Inv.setSlot (e := ⟨some f, cloexec⟩) h1 hk hi
          have he : ((s.incFile f).entry k i).file = none := hempty
          rwa [he] at h2
        · exact ⟨fun hc => absurd hc.1 hi, fun _ => .inr ⟨f, h1.setSlot_out hk hi⟩⟩
      · refine ⟨fun hc => absurd hc.2 hlive, fun _ => .inl ?_⟩
        rw [setSlot_pool]
        simp only [State.incFile, Pool.inc, Option.not_isSome_iff_eq_none.1 hlive]

@[simp] theorem fdInstall_pool : (fdInstall s k fd f).pool = s.pool := by
  unfold fdInstall
  split
  · exact setSlot_pool
  · rfl

theorem isSome_fdInstall (hk : (s.files k).isSome) : ((fdInstall s k fd f).files k).isSome := by
  unfold fdInstall
  split
  · exact isSome_setSlot hk
  · exact hk

/-- `do_close` drops a reference of the descriptor's own file only. -/
theorem doClose_count (hne : (s.entry k fd).file ≠ some f) : (doClose s k fd).2.pool.count f = s.pool.count f := by
  unfold doClose
  split
  · split
    · rw [setSlot_pool]
    · rename_i g hg
      show ((s.setSlot k fd .empty).pool.dec g).count f = _
      have hfg : f ≠ g := fun hc => hne (by rw [hg, hc])
      rw [Pool.dec_count_of_ne _ hfg, setSlot_pool]
  · rfl

/-- **`pipe`**: two new files, both in the table or both freed. -/
theorem Inv.doPipe (h : Inv s loc) (hk : (s.files k).isSome) {pi rf wf : Option Nat} (hnew : s.NewPipe pi rf wf) :
    Inv (doPipe s k pi rf wf).2 loc := by
  cases pi with
  | none => exact h
  | some p =>
  cases rf with
  | none => exact h
  | some r =>
  cases wf with
  | none => exact h
  | some w =>
    obtain ⟨-, hr, hw, hne⟩ := hnew
    have hrw : w ≠ r := fun hc => hne r rfl w rfl hc.symm
    -- the pipe's counts are not part of the books
    have h0 : Inv { s with pipes := Function.update s.pipes p (some ⟨1, 1⟩) } loc := ⟨h.bal, h.bound, h.next⟩
    have h1 := h0.newFile (hr r rfl) (some (.read, p))
    have hw1 : State.NewFile (State.newFile { s with pipes := Function.update s.pipes p (some ⟨1, 1⟩) } r
        (some (.read, p))) w := by
      simp only [State.NewFile, State.newFile, Pool.alloc, Function.update_of_ne hrw]
      exact hw w rfl
    have h2 := h1.newFile hw1 (some (.write, p))
    have hrefs : r ∉ loc ++ s.refs := h.not_mem_of_new (hr r rfl)
    have hwrefs : w ∉ loc ++ s.refs := h.not_mem_of_new (hw w rfl)
    unfold Files.doPipe
    dsimp only
    generalize hs1 : State.newFile (State.newFile { s with pipes := Function.update s.pipes p (some ⟨1, 1⟩) } r
      (some (.read, p))) w (some (.write, p)) = s₁ at h2
    have hk1 : (s₁.files k).isSome := by rw [← hs1]; exact hk
    have hrefs1 : s₁.refs = s.refs := by rw [← hs1]; rfl
    rcases hg : Files.getUnusedFd s₁ k with ⟨_ | rfd, s₂⟩
    · rw [getUnusedFd_none hg]
      have h3 : Inv s₁ (r :: w :: loc) := h2.perm (List.Perm.swap r w loc)
      have h4 := h3.kfreeFile (by rw [List.cons_append, hrefs1]; exact fun hc => (List.mem_cons.1 hc).elim (fun hc => hrw hc.symm) hrefs)
      have h5 := h4.kfreeFile (by show w ∉ loc ++ s₁.refs; rwa [hrefs1])
      exact ⟨h5.bal, h5.bound, h5.next⟩
    · obtain ⟨h3, hi, he, hk2, hpool, hperm⟩ := h2.getUnusedFd hg
      have h4 : Inv (Files.fdInstall s₂ k rfd r) (w :: loc) := (h3.perm (List.Perm.swap r w loc)).fdInstall hk2 hi he
      dsimp only
      rcases hg2 : Files.getUnusedFd (Files.fdInstall s₂ k rfd r) k with ⟨_ | wfd, s₃⟩
      · rw [getUnusedFd_none hg2]
        have h5 : Inv (Files.doClose (Files.fdInstall s₂ k rfd r) k rfd).2 (w :: loc) :=
          h4.doClose (isSome_fdInstall hk2)
        have hentry : (((Files.fdInstall s₂ k rfd r).entry k rfd).file) ≠ some w := by
          unfold Files.fdInstall
          rw [if_pos hi, entry_setSlot hk2, if_pos rfl]
          exact fun hc => hrw (Option.some.inj hc).symm
        have hone : (Files.doClose (Files.fdInstall s₂ k rfd r) k rfd).2.pool.count w = some 1 := by
          rw [doClose_count hentry, fdInstall_pool, hpool, ← hs1]
          exact Function.update_self _ _ _
        have h6 := h5.kfreeFile (h5.bal.not_mem_of_one hone)
        exact ⟨h6.bal, h6.bound, h6.next⟩
      · obtain ⟨h5, hi2, he2, hk3, -, -⟩ := h4.getUnusedFd hg2
        exact h5.fdInstall hk3 hi2 he2

/-! ## Fork -/

theorem slots_copy (t : FilesStruct) (junk : Int → FdEntry) : (t.copy junk).slots = t.slots := by
  apply slots_congr
  intro i hi
  unfold FilesStruct.copy
  dsimp only
  rw [if_pos hi]
  split
  · rename_i hf
    exact hf.symm
  · rfl

theorem slots_subset_refs (hb : ∀ k, s.ntasks ≤ k → s.files k = none) (ht : s.files k = some t) (hf : f ∈ t.slots) :
    f ∈ s.refs := by
  obtain ⟨i, hi, he⟩ := mem_slots.1 hf
  exact mem_refs_of_entry hb hi (by rwa [entry_eq ht])

/-- A task more, with a table of its own. -/
theorem refs_add (h1 : s'.ntasks = s.ntasks + 1) (h2 : s'.files = Function.update s.files s.ntasks (some t))
    (h3 : s'.inflight = s.inflight) : s'.refs.Perm (t.slots ++ s.refs) := by
  have hold : gather s'.slotsOf s.ntasks = gather s.slotsOf s.ntasks := by
    apply gather_congr
    intro j hj
    simp only [State.slotsOf, h2, Function.update_of_ne (Nat.ne_of_lt hj)]
  have hnew : s'.slotsOf s.ntasks = t.slots := slotsOf_eq (by rw [h2, Function.update_self])
  unfold State.refs
  rw [h1, h3, gather, hold, hnew, List.append_assoc]
  exact List.perm_append_comm_assoc _ _ _

/-- **A fork** takes a reference for every file of the table. -/
theorem Inv.filesCopy (h : Inv s loc) (hk : (s.files k).isSome) (mem : Bool) (junk : Int → FdEntry) :
    Inv (filesCopy s k mem junk) loc := by
  obtain ⟨t, ht⟩ := Option.isSome_iff_exists.1 hk
  unfold Files.filesCopy
  simp only [ht]
  have hnew := h.bound s.ntasks (Nat.le_refl _)
  cases mem with
  | false =>
    simp only [Bool.not_false, if_true]
    refine ⟨?_, fun j hj => h.bound j (Nat.le_of_succ_le hj), h.next⟩
    have hrefs : State.refs { s with ntasks := s.ntasks + 1 } = s.refs := by
      show gather s.slotsOf s.ntasks ++ s.slotsOf s.ntasks ++ s.inflight = _
      have hnil : s.slotsOf s.ntasks = [] := by
        unfold State.slotsOf
        rw [hnew]
      rw [hnil, List.append_nil]
      rfl
    rw [hrefs]
    exact h.bal
  | true =>
    simp only [Bool.not_true, Bool.false_eq_true, if_false]
    refine ⟨?_, fun j hj => ?_, fun j u hu => ?_⟩
    · have hall : Pool.Balanced (t.slots.foldl Pool.inc s.pool) (t.slots ++ (loc ++ s.refs)) :=
        h.bal.incs fun f hf => List.mem_append_right _ (slots_subset_refs h.bound ht hf)
      refine hall.perm ((List.perm_append_comm_assoc _ _ _).trans (List.Perm.append_left loc ?_))
      have hadd : ∀ s' : State, s'.ntasks = s.ntasks + 1 →
          s'.files = Function.update s.files s.ntasks (some (t.copy junk)) → s'.inflight = s.inflight →
          s'.refs.Perm ((t.copy junk).slots ++ s.refs) := fun _ h1 h2 h3 => refs_add h1 h2 h3
      rw [← slots_copy t junk]
      refine (hadd _ ?_ ?_ ?_).symm <;> rfl
    · have hjn : s.ntasks + 1 ≤ j := hj
      simp only [Function.update_of_ne (by omega : j ≠ s.ntasks)]
      exact h.bound j (Nat.le_of_succ_le hjn)
    · by_cases hj : j = s.ntasks
      · subst hj
        simp only [Function.update_self, Option.some.injEq] at hu
        exact hu ▸ h.next k t ht
      · simp only [Function.update_of_ne hj] at hu
        exact h.next j u hu

/-! ## Exit -/

theorem Inv.exitSlot (h : Inv s loc) (hk : (s.files k).isSome) {n : Nat} (hn : n < maxFds) :
    Inv (exitSlot s k n) loc := by
  unfold Files.exitSlot
  split
  · exact h
  · rename_i f hf
    rw [setSlot_fput]
    have hset := Inv.setSlot (e := { s.entry k n with file := none }) h hk (inTable_iff.2 hn)
    rw [hf] at hset
    exact hset.fput

theorem entry_fput (s : State) (f : Nat) : (fput s f).entry k i = s.entry k i := rfl

theorem exitSlot_spec (hk : (s.files k).isSome) (n : Nat) :
    ((exitSlot s k n).files k).isSome ∧ ((exitSlot s k n).entry k n).file = none ∧
      ∀ i, i ≠ (n : Int) → (exitSlot s k n).entry k i = s.entry k i := by
  unfold exitSlot
  split
  · rename_i hf
    exact ⟨hk, hf, fun _ _ => rfl⟩
  · rename_i f hf
    refine ⟨isSome_setSlot (s := fput s f) hk, ?_, fun i hi => ?_⟩
    · rw [entry_setSlot (s := fput s f) hk, if_pos rfl]
    · rw [entry_setSlot (s := fput s f) hk, if_neg hi, entry_fput]

/-- **The loop over the entries** drops the references of those it has passed. -/
theorem Inv.exitSlots : ∀ (l : List Nat) {s : State}, Inv s loc → (s.files k).isSome → (∀ n ∈ l, n < maxFds) →
    Inv (l.foldl (fun s n => Files.exitSlot s k n) s) loc ∧
      ((l.foldl (fun s n => Files.exitSlot s k n) s).files k).isSome ∧
      ∀ n : Nat, (n ∈ l ∨ (s.entry k n).file = none) →
        ((l.foldl (fun s n => Files.exitSlot s k n) s).entry k n).file = none
  | [], s, h, hk, _ => ⟨h, hk, fun n hn => hn.resolve_left List.not_mem_nil⟩
  | m :: l, s, h, hk, hl => by
    obtain ⟨hk1, hnone, hother⟩ := exitSlot_spec hk m
    obtain ⟨h2, hk2, hall⟩ := Inv.exitSlots l (h.exitSlot hk (hl m List.mem_cons_self)) hk1
      fun n hn => hl n (List.mem_cons_of_mem m hn)
    refine ⟨h2, hk2, fun n hn => hall n ?_⟩
    by_cases hnm : n = m
    · subst hnm
      exact .inr hnone
    · rw [hother n (fun hc => hnm (Int.ofNat_inj.1 hc))]
      exact hn.imp_left fun hc => (List.mem_cons.1 hc).resolve_left hnm

theorem Inv.exitClose (h : Inv s loc) (hk : (s.files k).isSome) : Inv (exitClose s k) loc ∧
    ∃ t, (Files.exitClose s k).files k = some t ∧ t.slots = [] := by
  obtain ⟨h1, hk1, hall⟩ := Inv.exitSlots (List.range maxFds) h hk fun n hn => List.mem_range.1 hn
  obtain ⟨t, ht⟩ := Option.isSome_iff_exists.1 hk1
  unfold Files.exitClose
  refine ⟨h1, t, ht, List.eq_nil_iff_forall_not_mem.2 fun f hf => ?_⟩
  obtain ⟨i, hi, he⟩ := mem_slots.1 hf
  obtain ⟨n, rfl, hn⟩ := hi.exists_nat
  have hnone := hall n (.inl (List.mem_range.2 hn))
  rw [entry_eq ht, he] at hnone
  cases hnone

theorem exitSlot_none (hk : s.files k = none) (n : Nat) : exitSlot s k n = s := by
  unfold exitSlot State.entry
  rw [hk]
  rfl

theorem exitClose_none (hk : s.files k = none) : exitClose s k = s := by
  unfold exitClose
  induction List.range maxFds with
  | nil => rfl
  | cons n l ih => rw [List.foldl_cons, exitSlot_none hk, ih]

theorem filesFree_none (hk : s.files k = none) : filesFree s k = s := by
  unfold filesFree
  rw [← hk, Function.update_eq_self]

/-- A table that goes leaves its references behind. -/
theorem Inv.filesFree (h : Inv s loc) (ht : s.files k = some t) : Inv (filesFree s k) (t.slots ++ loc) := by
  have hk : k < s.ntasks := by
    by_contra hc
    rw [h.bound k (Nat.le_of_not_lt hc)] at ht
    cases ht
  have hother : ∀ j, j < s.ntasks → j ≠ k → (Files.filesFree s k).slotsOf j = s.slotsOf j := fun j _ hj => by
    simp only [State.slotsOf, Files.filesFree, Function.update_of_ne hj]
  have hg := gather_set hk hother
  have hnil : (Files.filesFree s k).slotsOf k = [] := by
    simp only [State.slotsOf, Files.filesFree, Function.update_self]
  rw [slotsOf_eq ht, hnil, List.nil_append] at hg
  refine ⟨h.bal.perm ?_, fun j hj => ?_, fun j u hu => ?_⟩
  · have hr : s.refs.Perm (t.slots ++ (Files.filesFree s k).refs) := by
      unfold State.refs
      rw [← List.append_assoc]
      exact hg.symm.append_right _
    calc loc ++ s.refs
      _ |>.Perm (loc ++ (t.slots ++ (Files.filesFree s k).refs)) := hr.append_left _
      _ |>.Perm (t.slots ++ loc ++ (Files.filesFree s k).refs) := by
          rw [List.append_assoc]
          exact List.perm_append_comm_assoc _ _ _
  · have hjk : s.ntasks ≤ j := hj
    simp only [Files.filesFree, Function.update_of_ne (fun hc => Nat.not_le_of_lt hk (hc ▸ hjk) : j ≠ k)]
    exact h.bound j hjk
  · by_cases hj : j = k
    · subst hj
      simp only [Files.filesFree, Function.update_self] at hu
      cases hu
    · simp only [Files.filesFree, Function.update_of_ne hj] at hu
      exact h.next j u hu

/-! ## Exec -/

/-- An entry that exec does not close, or that has its file to itself. -/
def SlotOk (s : State) (k n : Nat) : Prop :=
  ∀ f ∈ (s.entry k n).file, (s.entry k n).cloexec = true → s.pool.count f = some 1

instance (s : State) (k n : Nat) : Decidable (SlotOk s k n) := inferInstanceAs (Decidable (∀ _ ∈ _, _))

/-- Every close-on-exec entry has its file to itself. -/
def ExecOk (s : State) (k : Nat) : Prop := ∀ n < maxFds, SlotOk s k n

instance (s : State) (k : Nat) : Decidable (ExecOk s k) := inferInstanceAs (Decidable (∀ _ < _, _))

/-- Something has touched a freed file, or a freed file is still referred to. -/
def Broken (s : State) (f : Nat) : Prop := s.pool.uaf = true ∨ (s.pool.count f = none ∧ f ∈ s.refs)

theorem Broken.not_tracked (h : Broken s f) : ¬Tracked s := by
  intro ht
  rcases h with h | ⟨hnone, hmem⟩
  · exact Bool.false_ne_true (ht.fine.symm.trans h)
  · have hs := ht.isSome_iff.2 hmem
    rw [hnone] at hs
    cases hs

theorem pipeRelease_files (s : State) (e : PipeEnd) (p : Nat) :
    (pipeRelease s e p).files = s.files ∧ (pipeRelease s e p).pool = s.pool := by
  unfold pipeRelease
  split <;> exact ⟨rfl, rfl⟩

theorem release_files (s : State) (f : Nat) : (release s f).files = s.files ∧ (release s f).pool = s.pool := by
  unfold release
  split
  · exact ⟨rfl, rfl⟩
  · exact pipeRelease_files _ _ _

theorem filpClose_files (s : State) (f : Nat) : (filpClose s f).files = s.files := (release_files s f).1

theorem filpClose_pool (s : State) (f : Nat) : (filpClose s f).pool = s.pool.free f := by
  show (release s f).pool.free f = _
  rw [(release_files s f).2]

theorem filpClose_ntasks (s : State) (f : Nat) : (filpClose s f).ntasks = s.ntasks := by
  unfold filpClose release pipeRelease
  split
  · rfl
  · dsimp only
    split <;> rfl

theorem filpClose_entry (s : State) (f : Nat) : (filpClose s f).entry k i = s.entry k i := by
  unfold State.entry
  rw [filpClose_files]

theorem filpClose_refs (s : State) (f : Nat) : (filpClose s f).refs = s.refs := release_refs s f

/-- The references after a store. -/
theorem refs_setSlot (hb : ∀ k, s.ntasks ≤ k → s.files k = none) (hk : (s.files k).isSome) (hi : InTable i) :
    (e.file.toList ++ s.refs).Perm ((s.entry k i).file.toList ++ (s.setSlot k i e).refs) := by
  obtain ⟨t, ht⟩ := Option.isSome_iff_exists.1 hk
  rw [setSlot_eq ht, entry_eq ht]
  refine (List.perm_append_left_iff (t.set i e).slots).1 ?_
  calc (t.set i e).slots ++ (e.file.toList ++ s.refs)
    _ |>.Perm (e.file.toList ++ ((t.set i e).slots ++ s.refs)) := List.perm_append_comm_assoc _ _ _
    _ |>.Perm (e.file.toList ++ (t.slots ++ (s.setTable k (t.set i e)).refs)) := (refs_setTable hb ht _).append_left _
    _ |>.Perm ((t.fdArray i).file.toList ++ (t.set i e).slots ++ (s.setTable k (t.set i e)).refs) := by
        rw [← List.append_assoc]
        exact (slots_set hi e).append_right _
    _ |>.Perm ((t.set i e).slots ++ ((t.fdArray i).file.toList ++ (s.setTable k (t.set i e)).refs)) := by
        rw [List.append_assoc]
        exact List.perm_append_comm_assoc _ _ _

/-- What the close-on-exec loop does to one entry: nothing, or `filp_close` and an empty entry. -/
theorem execSlot_cases (s : State) (k n : Nat) :
    (execSlot s k n = s ∧ ∀ f ∈ (s.entry k n).file, (s.entry k n).cloexec = false) ∨
      ∃ f, (s.entry k n).file = some f ∧ (s.entry k n).cloexec = true ∧
        execSlot s k n = (filpClose s f).setSlot k n .empty := by
  unfold execSlot
  cases hf : (s.entry k n).file with
  | none => exact .inl ⟨rfl, fun f hm => by cases hm⟩
  | some f =>
    cases hc : (s.entry k n).cloexec with
    | false => exact .inl ⟨rfl, fun _ _ => rfl⟩
    | true => exact .inr ⟨f, rfl, rfl, rfl⟩

/-- The part of the books that close-on-exec always keeps. -/
theorem exec_bound {n : Nat} (hb : ∀ k, s.ntasks ≤ k → s.files k = none) (hk : (s.files k).isSome) :
    (∀ j, (execSlot s k n).ntasks ≤ j → (execSlot s k n).files j = none) ∧ ((execSlot s k n).files k).isSome := by
  rcases execSlot_cases s k n with ⟨he, -⟩ | ⟨f, -, -, he⟩
  · rw [he]
    exact ⟨hb, hk⟩
  · have hk' : ((filpClose s f).files k).isSome := by rwa [filpClose_files]
    rw [he]
    refine ⟨fun j hj => ?_, isSome_setSlot hk'⟩
    obtain ⟨t, ht⟩ := Option.isSome_iff_exists.1 hk'
    rw [setSlot_eq ht] at hj ⊢
    have hj' : s.ntasks ≤ j := filpClose_ntasks s f ▸ hj
    have hne : j ≠ k := by
      rintro rfl
      rw [hb j hj'] at hk
      cases hk
    simp only [State.setTable, Function.update_of_ne hne, filpClose_files]
    exact hb j hj'

/-- **Once broken, broken until the loop ends.** -/
theorem Broken.execSlot (h : Broken s f) (hb : ∀ k, s.ntasks ≤ k → s.files k = none) (hk : (s.files k).isSome) {n : Nat}
    (hn : n < maxFds) : Broken (Files.execSlot s k n) f := by
  rcases execSlot_cases s k n with ⟨he, -⟩ | ⟨g, hg, -, he⟩
  · rwa [he]
  have hk' : ((filpClose s g).files k).isSome := by rwa [filpClose_files]
  have hpool : (Files.execSlot s k n).pool = s.pool.free g := by rw [he, setSlot_pool, filpClose_pool]
  have huaf : s.pool.uaf = true → (s.pool.free g).uaf = true := by
    intro hu
    unfold Pool.free
    split
    · rfl
    · exact hu
  unfold Broken
  rw [hpool]
  rcases h with h | ⟨hnone, hmem⟩
  · exact .inl (huaf h)
  by_cases hgf : g = f
  · -- a second `filp_close`
    subst hgf
    left
    unfold Pool.free
    rw [hnone]
  · right
    rw [Pool.free_count_of_ne _ (Ne.symm hgf)]
    refine ⟨hnone, ?_⟩
    have hbr : ∀ j, (filpClose s g).ntasks ≤ j → (filpClose s g).files j = none := by
      rw [filpClose_files, filpClose_ntasks]
      exact hb
    have hp := refs_setSlot (e := FdEntry.empty) hbr hk' (inTable_iff.2 hn)
    rw [filpClose_entry, hg, filpClose_refs] at hp
    have hm := hp.mem_iff.1 (show f ∈ FdEntry.empty.file.toList ++ s.refs from hmem)
    rw [he]
    exact (List.mem_append.1 hm).resolve_left fun hc => hgf (Option.mem_toList.1 hc |> Option.some.inj)

theorem Broken.execSlots : ∀ (l : List Nat) {s : State}, Broken s f → (∀ k, s.ntasks ≤ k → s.files k = none) →
    (s.files k).isSome → (∀ n ∈ l, n < maxFds) → Broken (l.foldl (fun s n => Files.execSlot s k n) s) f
  | [], _, h, _, _, _ => h
  | n :: l, s, h, hb, hk, hl => by
    obtain ⟨hb', hk'⟩ := exec_bound (n := n) hb hk
    exact Broken.execSlots l (h.execSlot hb hk (hl n List.mem_cons_self)) hb' hk' fun m hm =>
      hl m (List.mem_cons_of_mem n hm)

theorem setSlot_kfreeFile (s : State) : (s.kfreeFile f).setSlot k i e = (s.setSlot k i e).kfreeFile f := by
  unfold State.setSlot State.kfreeFile
  dsimp only
  split <;> rfl

/-- A close-on-exec entry with a file of its own. -/
theorem Inv.closeOwn (h : Inv s []) (hk : (s.files k).isSome) {n : Nat} (hn : n < maxFds)
    (hf : (s.entry k n).file = some f) (h1 : s.pool.count f = some 1) :
    Inv ((Files.filpClose s f).setSlot k n .empty) [] := by
  have hk' : ((Files.release s f).files k).isSome := by rwa [(release_files s f).1]
  have hset := Inv.setSlot (e := FdEntry.empty) (h.release f) hk' (inTable_iff.2 hn)
  have hentry : ((Files.release s f).entry k n).file = some f := by
    unfold State.entry
    rw [(release_files s f).1]
    exact hf
  rw [hentry] at hset
  unfold Files.filpClose
  rw [setSlot_kfreeFile]
  refine hset.kfreeFile (hset.bal.not_mem_of_one ?_)
  rw [setSlot_pool, (release_files s f).2]
  exact h1

/-- A close-on-exec entry whose file has another holder. -/
theorem Inv.closeShared (h : Inv s []) (hk : (s.files k).isSome) {n : Nat} (hn : n < maxFds)
    (hf : (s.entry k n).file = some f) (h1 : s.pool.count f ≠ some 1) :
    Broken ((Files.filpClose s f).setSlot k n .empty) f := by
  have hmem := mem_refs_of_entry h.bound (inTable_iff.2 hn) hf
  have hk' : ((Files.filpClose s f).files k).isSome := by rwa [filpClose_files]
  right
  refine ⟨by rw [setSlot_pool, filpClose_pool]; exact Pool.free_count_self _ _, ?_⟩
  have hb : ∀ j, (Files.filpClose s f).ntasks ≤ j → (Files.filpClose s f).files j = none := by
    rw [filpClose_files, filpClose_ntasks]
    exact h.bound
  have hp := (refs_setSlot (e := FdEntry.empty) hb hk' (inTable_iff.2 hn)).count_eq f
  rw [filpClose_entry, hf, filpClose_refs] at hp
  have hc : s.pool.count f = some (s.refs.count f : Int) := h.bal.eq_some_of_mem hmem
  have h1' : (s.refs.count f : Int) ≠ 1 := fun hn => h1 (by rw [hc, hn])
  rw [Option.toList_some, List.singleton_append, List.count_cons_self] at hp
  have hp' : s.refs.count f = (((Files.filpClose s f).setSlot k n .empty).refs).count f + 1 := hp
  exact List.count_pos_iff.1 (by omega)

theorem Inv.execSlot_ok (h : Inv s []) (hk : (s.files k).isSome) {n : Nat} (hn : n < maxFds) (hok : SlotOk s k n) :
    Inv (Files.execSlot s k n) [] := by
  rcases execSlot_cases s k n with ⟨he, -⟩ | ⟨f, hf, hc, he⟩
  · rwa [he]
  · rw [he]
    exact h.closeOwn hk hn hf (hok f hf hc)

/-- The other entries are as they were, and hold other files. -/
theorem Inv.slotOk_iff {n m : Nat} (hinv : Inv (Files.execSlot s k n) []) (hm : m < maxFds) (hmn : m ≠ n) :
    SlotOk (Files.execSlot s k n) k m ↔ SlotOk s k m := by
  rcases execSlot_cases s k n with ⟨he, -⟩ | ⟨f, hf, -, he⟩
  · rw [he]
  have hne : (m : Int) ≠ n := fun hc => hmn (Int.ofNat_inj.1 hc)
  have hk : (s.files k).isSome := by
    cases ht : s.files k with
    | none =>
      unfold State.entry at hf
      rw [ht] at hf
      cases hf
    | some t => rfl
  have hk2 : ((Files.filpClose s f).files k).isSome := by rwa [filpClose_files]
  have hentry : (Files.execSlot s k n).entry k m = s.entry k m := by
    rw [he, entry_setSlot hk2, if_neg hne, filpClose_entry]
  unfold SlotOk
  rw [hentry]
  refine forall₂_congr fun g hg => imp_congr_right fun _ => ?_
  have hgf : g ≠ f := by
    rintro rfl
    have hm2 := mem_refs_of_entry (f := g) hinv.bound (inTable_iff.2 hm) (by rw [hentry]; exact hg)
    have hlive := hinv.bal.isSome_iff.2 hm2
    rw [he, setSlot_pool, filpClose_pool, Pool.free_count_self] at hlive
    cases hlive
  rw [he, setSlot_pool, filpClose_pool, Pool.free_count_of_ne _ hgf]

/-- **The close-on-exec loop keeps the books exactly when every entry it closes has its file to itself.** -/
theorem Inv.execSlots : ∀ (l : List Nat) {s : State}, Inv s [] → (s.files k).isSome → (∀ n ∈ l, n < maxFds) → l.Nodup →
    ((∀ n ∈ l, SlotOk s k n) → Inv (l.foldl (fun s n => Files.execSlot s k n) s) []) ∧
      (Tracked (l.foldl (fun s n => Files.execSlot s k n) s) → ∀ n ∈ l, SlotOk s k n)
  | [], s, h, _, _, _ => ⟨fun _ => h, fun _ n hn => absurd hn List.not_mem_nil⟩
  | n :: l, s, h, hk, hl, hnd => by
    have hn := hl n List.mem_cons_self
    have hl' : ∀ m ∈ l, m < maxFds := fun m hm => hl m (List.mem_cons_of_mem n hm)
    obtain ⟨hnl, hnd'⟩ := List.nodup_cons.1 hnd
    obtain ⟨hb', hk'⟩ := exec_bound (n := n) h.bound hk
    simp only [List.foldl_cons, List.forall_mem_cons]
    rcases execSlot_cases s k n with ⟨he, hno⟩ | ⟨f, hf, hc, he⟩
    · -- nothing to close here
      have hok : SlotOk s k n := fun f hf hc => absurd hc (by rw [hno f hf]; exact Bool.false_ne_true)
      rw [he]
      obtain ⟨h1, h2⟩ := Inv.execSlots l h hk hl' hnd'
      exact ⟨fun hall => h1 hall.2, fun ht => ⟨hok, h2 ht⟩⟩
    · by_cases hone : s.pool.count f = some 1
      · have hok : SlotOk s k n := fun g hg _ => by
          rw [hf] at hg
          exact Option.some.inj hg ▸ hone
        have hinv := h.closeOwn hk hn hf hone
        rw [← he] at hinv
        have hsame : ∀ m ∈ l, (SlotOk (Files.execSlot s k n) k m ↔ SlotOk s k m) := fun m hm =>
          hinv.slotOk_iff (hl' m hm) fun hc => hnl (hc ▸ hm)
        obtain ⟨h1, h2⟩ := Inv.execSlots l hinv hk' hl' hnd'
        exact ⟨fun hall => h1 fun m hm => (hsame m hm).2 (hall.2 m hm),
          fun ht => ⟨hok, fun m hm => (hsame m hm).1 (h2 ht m hm)⟩⟩
      · have hbr := h.closeShared hk hn hf hone
        rw [← he] at hbr
        exact ⟨fun hall => absurd (hall.1 f hf hc) hone,
          fun ht => absurd ht (Broken.execSlots l hbr hb' hk' hl').not_tracked⟩

theorem Inv.execClose (h : Inv s []) (hk : (s.files k).isSome) :
    (ExecOk s k → Inv (Files.execClose s k) []) ∧ (Tracked (Files.execClose s k) → ExecOk s k) := by
  obtain ⟨h1, h2⟩ := Inv.execSlots (List.range maxFds) h hk (fun n hn => List.mem_range.1 hn) List.nodup_range
  unfold Files.execClose
  exact ⟨fun hok => h1 fun n hn => hok n (List.mem_range.1 hn), fun ht n hn => h2 ht n (List.mem_range.2 hn)⟩

/-! ## Runs -/

/-- **The steps that keep the books**: `dup2`, `dup3` and `F_DUPFD` store within the table, close-on-exec closes files that
no one else holds, and a task that ends through `task_exit` has no file open. -/
def StepOk (s : State) : Label → Prop
  | .dup2 k oldfd newfd => Dup2Ok s k oldfd newfd
  | .dup3 k oldfd newfd _ => oldfd = newfd ∨ Dup2Ok s k oldfd newfd
  | .dupfd k fd arg _ => DupfdOk s k fd arg
  | .exec k => ExecOk s k
  | .taskExit k => s.slotsOf k = []
  | _ => True

instance (s : State) : ∀ a, Decidable (StepOk s a)
  | .dup2 k oldfd newfd => inferInstanceAs (Decidable (Dup2Ok s k oldfd newfd))
  | .dup3 k oldfd newfd _ => inferInstanceAs (Decidable (oldfd = newfd ∨ Dup2Ok s k oldfd newfd))
  | .dupfd k fd arg _ => inferInstanceAs (Decidable (DupfdOk s k fd arg))
  | .exec k => inferInstanceAs (Decidable (ExecOk s k))
  | .taskExit k => inferInstanceAs (Decidable (s.slotsOf k = []))
  | .opn _ _ | .close _ _ | .dup _ _ | .setfd _ _ _ | .pipe _ _ _ _ | .fork _ _ _ | .exit _ | .reap _ | .fget _ _ | .fput _ =>
    inferInstanceAs (Decidable True)

theorem Inv.tracked (h : Inv s []) : Tracked s := h.bal

/-- A reference that no holder has. -/
theorem Inv.not_tracked (h : Inv s (f :: loc)) : ¬Tracked s := by
  intro ht
  have hc := h.bal.count_eq ht f
  rw [List.cons_append, List.count_cons_self, List.count_append] at hc
  omega

theorem when_some {P : Prop} [Decidable P] {s s' : State} (h : when P s = some s') : P ∧ s' = s := by
  unfold when at h
  by_cases hP : P
  · rw [if_pos hP] at h
    exact ⟨hP, (Option.some.inj h).symm⟩
  · rw [if_neg hP] at h
    cases h

theorem Inv.bury (h : Inv s loc) (k : Nat) : Inv (s.bury k) loc := ⟨h.bal, h.bound, h.next⟩

/-- **What a step does to the books**: it keeps them if it is one of those that do, and spoils them if not. -/
theorem Inv.step (h : Inv s []) {a : Label} (hs : fileStep s a = some s') :
    (StepOk s a → Inv s' []) ∧ (Tracked s' → StepOk s a) := by
  cases a with
  | opn k new =>
    obtain ⟨⟨-, hnew⟩, rfl⟩ := when_some hs
    exact ⟨fun _ => h.sysOpen hnew, fun _ => trivial⟩
  | close k fd =>
    obtain ⟨hl, rfl⟩ := when_some hs
    exact ⟨fun _ => h.doClose hl.1, fun _ => trivial⟩
  | dup k oldfd =>
    obtain ⟨-, rfl⟩ := when_some hs
    exact ⟨fun _ => h.sysDup, fun _ => trivial⟩
  | dup2 k oldfd newfd =>
    obtain ⟨hl, rfl⟩ := when_some hs
    obtain ⟨h1, h2⟩ := h.sysDup2 hl.1 oldfd newfd
    refine ⟨h1, fun ht => ?_⟩
    by_contra hno
    obtain ⟨f, hf⟩ := h2 hno
    exact hf.not_tracked ht
  | dup3 k oldfd newfd cloexec =>
    obtain ⟨hl, rfl⟩ := when_some hs
    by_cases heq : oldfd = newfd
    · refine ⟨fun _ => ?_, fun _ => .inl heq⟩
      unfold sysDup3
      rw [if_pos heq]
      exact h
    · obtain ⟨h1, h2⟩ := h.sysDup2 hl.1 oldfd newfd
      refine ⟨fun hok => sysDup3_inv hl.1 heq (h1 (hok.resolve_left heq)), fun ht => .inr ?_⟩
      by_contra hno
      obtain ⟨f, hf⟩ := h2 hno
      exact (sysDup3_inv hl.1 heq hf).not_tracked ht
  | dupfd k fd arg cloexec =>
    obtain ⟨hl, rfl⟩ := when_some hs
    obtain ⟨h1, h2⟩ := h.sysDupfd hl.1 fd arg cloexec
    refine ⟨h1, fun ht => ?_⟩
    by_contra hno
    rcases h2 hno with hu | ⟨f, hf⟩
    · exact Bool.false_ne_true (ht.fine.symm.trans hu)
    · exact hf.not_tracked ht
  | setfd k fd cloexec =>
    obtain ⟨hl, rfl⟩ := when_some hs
    exact ⟨fun _ => h.sysSetfd hl.1, fun _ => trivial⟩
  | pipe k pi rf wf =>
    obtain ⟨⟨hl, hnew⟩, rfl⟩ := when_some hs
    exact ⟨fun _ => h.doPipe hl.1 hnew, fun _ => trivial⟩
  | fork k mem junk =>
    obtain ⟨hl, rfl⟩ := when_some hs
    exact ⟨fun _ => h.filesCopy hl.1 mem junk, fun _ => trivial⟩
  | exec k =>
    have hs : when (s.Live k) (Files.execClose s k) = some s' := hs
    obtain ⟨hl, he⟩ := when_some hs
    rw [he]
    exact h.execClose hl.1
  | exit k =>
    have hs : when (s.Live k) ((Files.exitClose s k).bury k) = some s' := hs
    obtain ⟨hl, he⟩ := when_some hs
    rw [he]
    exact ⟨fun _ => (h.exitClose hl.1).1.bury k, fun _ => trivial⟩
  | taskExit k =>
    obtain ⟨hl, rfl⟩ := when_some hs
    obtain ⟨t, ht⟩ := Option.isSome_iff_exists.1 hl.1
    have hfree := (h.filesFree ht).bury k
    show (s.slotsOf k = [] → _) ∧ (_ → s.slotsOf k = [])
    rw [slotsOf_eq ht]
    refine ⟨fun hnil => by rwa [hnil] at hfree, fun htr => ?_⟩
    cases hsl : t.slots with
    | nil => rfl
    | cons f rest =>
      rw [hsl] at hfree
      exact absurd htr hfree.not_tracked
  | reap k =>
    have hs : when (s.zombie k = true) (Files.filesFree (Files.exitClose s k) k) = some s' := hs
    obtain ⟨-, he⟩ := when_some hs
    rw [he]
    refine ⟨fun _ => ?_, fun _ => trivial⟩
    cases hk : s.files k with
    | none => rwa [exitClose_none hk, filesFree_none hk]
    | some t =>
      obtain ⟨h1, t', ht', hnil⟩ := h.exitClose (k := k) (by rw [hk]; rfl)
      have hfree := h1.filesFree ht'
      rwa [hnil] at hfree
  | fget k fd =>
    obtain ⟨-, rfl⟩ := when_some hs
    refine ⟨fun _ => ?_, fun _ => trivial⟩
    rw [fget_eq]
    cases hl : s.lookup k fd with
    | none => exact h
    | some f =>
      have h1 := h.incFile (h.lookup_mem hl)
      refine ⟨h1.bal.perm ?_, h1.bound, h1.next⟩
      show (f :: (gather s.slotsOf s.ntasks ++ s.inflight)).Perm (gather s.slotsOf s.ntasks ++ f :: s.inflight)
      exact List.perm_middle.symm
  | fput f =>
    obtain ⟨hf, rfl⟩ := when_some hs
    refine ⟨fun _ => ?_, fun _ => trivial⟩
    have h1 : Inv { s with inflight := s.inflight.erase f } [f] := by
      refine ⟨h.bal.perm ?_, h.bound, h.next⟩
      show (gather s.slotsOf s.ntasks ++ s.inflight).Perm (f :: (gather s.slotsOf s.ntasks ++ s.inflight.erase f))
      exact ((List.perm_cons_erase hf).append_left _).trans List.perm_middle
    exact h1.fput

theorem Inv.init (h : fileMachine.init s) : Inv s [] := by
  obtain ⟨hpool, -, hn, -, hfiles, hin, t, ht, hnext, hempty⟩ := h
  have hslots : t.slots = [] := by
    refine List.eq_nil_iff_forall_not_mem.2 fun f hf => ?_
    obtain ⟨i, hi, he⟩ := mem_slots.1 hf
    rw [hempty i hi] at he
    cases he
  have hrefs : s.refs = [] := by
    unfold State.refs
    rw [hn, hin]
    show s.slotsOf 0 ++ [] = []
    rw [slotsOf_eq ht, hslots, List.append_nil]
  refine ⟨?_, fun k hk => hfiles k (hn ▸ hk), fun k u hu => ?_⟩
  · rw [hrefs, hpool]
    exact ⟨rfl, fun _ => rfl⟩
  · cases k with
    | zero =>
      rw [ht] at hu
      cases hu
      rw [hnext]
      exact Nat.zero_le _
    | succ k =>
      rw [hfiles (k + 1) (Nat.succ_pos k)] at hu
      cases hu

/-- **A `file_t` lives as long as its holders throughout a run exactly when every step is one that keeps the books.** -/
theorem tracked_iff_of_run (s : State) (l : List Label) (s' : State) (h0 : fileMachine.init s)
    (h : fileMachine.run s l = some s') :
    fileMachine.Always Tracked s l ↔ fileMachine.RunOk StepOk s l s' :=
  fileMachine.always_iff_runOk (fun _ hi => Inv.tracked hi) (fun _ _ _ hi hs => (hi.step hs).1)
    (fun _ _ _ hi hs => (hi.step hs).2) l s s' (Inv.init h0) h

/-! ## A shared file and close-on-exec -/

/-- The first task, before it opens anything. -/
def boot : State where
  pool := ⟨fun _ => none, false⟩
  kind := fun _ => none
  pipes := fun _ => none
  ntasks := 1
  files k := if k = 0 then some ⟨0, fun _ => .empty⟩ else none
  zombie := fun _ => false
  inflight := []

theorem boot_init : fileMachine.init boot :=
  ⟨rfl, fun _ => rfl, rfl, fun _ => rfl, fun _ hk => if_neg (Nat.pos_iff_ne_zero.1 hk), rfl, _, rfl, rfl, fun _ _ => rfl⟩

/-- A file is opened, duplicated with `O_CLOEXEC`, and kept over an exec: the first descriptor is left with a freed file. -/
theorem not_tracked_exec : ∃ s, fileMachine.init boot ∧
    fileMachine.run boot [.opn 0 (some 7), .dup3 0 0 5 true, .exec 0] = some s ∧
    s.lookup 0 0 = some 7 ∧ s.pool.count 7 = none ∧ ¬Tracked s := by
  have hrun : (fileMachine.run boot [.opn 0 (some 7), .dup3 0 0 5 true, .exec 0]).map
      (fun s => (s.lookup 0 0, s.pool.count 7, decide (7 ∈ s.refs))) = some (some 7, none, true) := by
    decide +kernel
  obtain ⟨s, hs, hval⟩ := Option.map_eq_some_iff.1 hrun
  simp only [Prod.mk.injEq, decide_eq_true_eq] at hval
  exact ⟨s, boot_init, hs, hval.1, hval.2.1, Broken.not_tracked (.inr hval.2)⟩

/-- A file opened, duplicated and inherited; both tasks exit. -/
theorem tracked_in_five : ∃ s, fileMachine.RunOk StepOk boot
      [.opn 0 (some 7), .dup3 0 0 5 true, .fork 0 true fun _ => .empty, .exit 1, .exit 0] s ∧
    fileMachine.Always Tracked boot
      [.opn 0 (some 7), .dup3 0 0 5 true, .fork 0 true fun _ => .empty, .exit 1, .exit 0] := by
  have hrun : (fileMachine.check StepOk boot
      [.opn 0 (some 7), .dup3 0 0 5 true, .fork 0 true fun _ => .empty, .exit 1, .exit 0]).isSome = true := by
    decide +kernel
  obtain ⟨s, hs⟩ := Option.isSome_iff_exists.1 hrun
  have hok := fileMachine.runOk_of_check hs
  exact ⟨s, hok, (tracked_iff_of_run boot _ s boot_init (Machine.RunOk.run fileMachine hok)).2 hok⟩

end Files
end Pico
