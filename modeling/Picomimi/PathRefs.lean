import Mathlib.Data.List.Nodup
import Picomimi.VfsRun
/-!
# PathRefs — the references `kern_path` takes and drops

`kern_path` of `Vfs`, with `d_lockref.count`: `dget` and `dput` move it, and `d_alloc` starts it at 1 and takes a reference of
the parent.  What the `lookup` of a directory does is a parameter (`LookupOp`): it may give the dentry an inode, fail, and make
dentries of its own under the one it looks up, as procfs does.  `Ledger` says which references a call holds in each state it
passes through, and `neutral_iff` which calls hold none at their end but that of the dentry they return.
-/
namespace Pico
namespace PathRefs

open Lib Vfs

/-! ## Trees that grow -/

/-- The pointers of the dentries lead to dentries. -/
structure Closed (s : Fs) : Prop where
  root : s.rootDentry < s.nrDentry
  parent : ∀ x < s.nrDentry, s.parent x < s.nrDentry
  child : ∀ x < s.nrDentry, ∀ c ∈ s.subdirs x, c < s.nrDentry
  mount : ∀ m ∈ s.mountTable, m.2 < s.nrDentry

/-- Dentries are added, under some that are there. -/
structure Adds (s t : Fs) : Prop where
  le : s.nrDentry ≤ t.nrDentry
  parent : ∀ x < s.nrDentry, t.parent x = s.parent x
  closed : Closed s → Closed t

/-- `i_op->lookup` by directory and dentry, where it is not `NULL`.  It returns 0 or an error; none returns another dentry. -/
structure LookupOp where
  has : Fs → (dir : Nat) → Bool
  run : Fs → (dir d : Nat) → Except Int Unit × Fs
  adds : ∀ {s dir d}, dir < s.nrDentry → d < s.nrDentry → Adds s (run s dir d).2

/-- The dentries made since `s` that are children of `x`. -/
def newChildren (s t : Fs) (x : Nat) : Nat :=
  (List.range' s.nrDentry (t.nrDentry - s.nrDentry)).countP fun y => t.parent y = x

/-! ## References -/

/-- The tree, the counts, and the lowest each has been since the call began. -/
structure State where
  fs : Fs
  count : Nat → Int          -- d_lockref.count
  low : Nat → Int

namespace State

variable (s : State)

def dget (d : Nat) : State := { s with count := Function.update s.count d (s.count d + 1) }

/-- The list of unused dentries, which nothing reads, is left out. -/
def dput (d : Nat) : State :=
  { s with
    count := Function.update s.count d (s.count d - 1)
    low := Function.update s.low d (min (s.low d) (s.count d - 1)) }

/-- What `d_alloc` does to the counts when the tree becomes `fs`: a new dentry starts at 1, and has one of its parent. -/
def grow (fs : Fs) : State :=
  { s with
    fs := fs
    count := fun x => (if x < s.fs.nrDentry then s.count x else 1) + newChildren s.fs fs x }

def start : State := { s with low := s.count }

end State

def dLookup (s : State) (parent : Nat) (name : Name) : Option Nat × State :=
  match Vfs.dLookup s.fs parent name with
  | none => (none, s)
  | some c => (some c, s.dget c)

def dAlloc (s : State) (parent : Nat) (name : Name) : Option Nat × State :=
  match Vfs.dAlloc s.fs parent name with
  | (none, fs) => (none, { s with fs := fs })
  | (some d, fs) => (some d, State.dget { s with fs := fs, count := Function.update s.count d 1 } parent)

/-! ## Path resolution -/

variable (op : LookupOp)

def lookupOne (s : State) (dir : Nat) (name : Name) : Except Int Nat × State :=
  match dLookup s dir name with
  | (some d, s) => (.ok d, s)
  | (none, s) =>
    match dAlloc s dir name with
    | (none, s) => (.error (-enomem), s)
    | (some d, s) =>
      if op.has s.fs dir then
        match op.run s.fs dir d with
        | (.error e, fs) => (.error e, (s.grow fs).dput d)
        | (.ok (), fs) => if fs.inode d = none then (.error (-enoent), s.grow fs) else (.ok d, s.grow fs)
      else if s.fs.inode d = none then (.error (-enoent), s)
      else (.ok d, s)

def crossMount (s : State) (d : Nat) : Nat × State :=
  match s.fs.mountTable.find? fun m => m.1 = d with
  | some m => (m.2, (s.dput d).dget m.2)
  | none => (d, s)

/-- `..`, of a dentry that is not the root. -/
def dotdot (s : State) (d : Nat) : Nat × State :=
  if d = s.fs.rootDentry then (d, s) else (s.fs.parent d, (s.dget (s.fs.parent d)).dput d)

def walkPath (lookupParent : Bool) : State → Nat → List Name → Except Int Nat × State
  | s, d, [] => (.ok d, s)
  | s, d, n :: rest =>
    if lookupParent ∧ rest = [] then (.ok d, s)
    else if n = ['.'] then walkPath lookupParent s d rest
    else if n = ['.', '.'] then
      let r := dotdot s d
      walkPath lookupParent r.2 r.1 rest
    else
      match lookupOne op s d n with
      | (.error e, s) => (.error e, s.dput d)
      | (.ok c, s) =>
        let r := crossMount (s.dput d) c
        walkPath lookupParent r.2 r.1 rest

/-- The component loop over the target of a symlink. -/
def walkTarget : State → Nat → List Name → Except Int Nat × State
  | s, d, [] => (.ok d, s)
  | s, d, n :: rest =>
    match dLookup s d n with
    | (some c, s) => walkTarget s c rest
    | (none, s) =>
      if op.has s.fs d then
        match dAlloc s d n with
        | (none, s) => (.error (-enomem), s)
        | (some c, s) =>
          match op.run s.fs d c with
          | (.error _, fs) => (.error (-enoent), (s.grow fs).dput c)
          | (.ok (), fs) => walkTarget (s.grow fs) c rest
      else (.error (-enoent), s)

/-- `LOOKUP_FOLLOW`, with so many links still allowed. -/
def followLinks : Nat → State → Nat → Except Int Nat × State
  | fuel, s, d =>
    if isSymlink s.fs d then
      match fuel with
      | 0 => (.error (-eloop), s)
      | fuel + 1 =>
        match (s.fs.inode d).map fun i => (s.fs.inodes i).iPrivate with
        | some (.link target) =>
          if target.head? = some '/' then
            match walkTarget op s s.fs.rootDentry (targetComponents target) with
            | (.error e, s) => (.error e, s)
            | (.ok d, s) => followLinks fuel s d
          else (.error (-enoent), s)
        | _ => (.error (-enoent), s)
    else (.ok d, s)

def kernPath (s : State) (path : List Char) (flags : LookupFlags) : Except Int Nat × State :=
  match walkPath op flags.parent (s.start.dget s.fs.rootDentry) s.fs.rootDentry (components path) with
  | (.error e, s) => (.error e, s)
  | (.ok d, s) => if flags.follow then followLinks op 8 s d else (.ok d, s)

/-! ## The law -/

/-- **The call is neutral**: at its end a dentry has its old count, one more for each new child, and one more if it is the
one returned; and no count was ever below what it was before the call. -/
structure Neutral (s : State) (r : Except Int Nat × State) : Prop where
  count : ∀ x < r.2.fs.nrDentry, r.2.count x = (if x < s.fs.nrDentry then s.count x else 0) + newChildren s.fs r.2.fs x +
    if r.1.toOption = some x then 1 else 0
  low : ∀ x < s.fs.nrDentry, s.count x ≤ r.2.low x

/-- What has to hold where a component is not in the cache: there is no memory for its dentry, or `lookup` makes no dentry
besides it and fails, or gives it an inode, and then `P`. -/
def Missed (s : Fs) (d : Nat) (n : Name) (P : Fs → Nat → Prop) : Prop :=
  match Vfs.dAlloc s d n with
  | (none, _) => True
  | (some c, t) => op.has t d = true ∧
    match op.run t d c with
    | (.error _, u) => u.nrDentry = t.nrDentry
    | (.ok (), u) => u.nrDentry = t.nrDentry ∧ u.inode c ≠ none ∧ P u c

/-- The component is in the cache, or is not and may be missed. -/
def Found (s : Fs) (d : Nat) (n : Name) (P : Fs → Nat → Prop) : Prop :=
  match Vfs.dLookup s d n with
  | some c => P s c
  | none => Missed op s d n P

/-- **The components are found without a trace**, and then `P`. -/
def Clean (lookupParent : Bool) (P : Fs → Nat → Prop) : Fs → Nat → List Name → Prop
  | s, d, [] => P s d
  | s, d, n :: rest =>
    if lookupParent ∧ rest = [] then P s d
    else if n = ['.'] then Clean lookupParent P s d rest
    else if n = ['.', '.'] then Clean lookupParent P s (if d = s.rootDentry then d else s.parent d) rest
    else Found op s d n fun t c => Clean lookupParent P t (Vfs.crossMount t c) rest

/-- **No component is missing, and there is no link to follow.** -/
def NoTrace (s : Fs) (path : List Char) (flags : LookupFlags) : Prop :=
  Clean op flags.parent (fun t d => flags.follow = true → isSymlink t d = false) s s.rootDentry (components path)

/-! ## Trees that grow -/

variable {op : LookupOp} {s t u : State} {a b c : Fs} {o o' : List Nat} {d e x : Nat} {n : Name}

theorem Adds.refl (a : Fs) : Adds a a := ⟨Nat.le_refl _, fun _ _ => rfl, id⟩

theorem Adds.trans (h1 : Adds a b) (h2 : Adds b c) : Adds a c :=
  ⟨h1.le.trans h2.le, fun x hx => (h2.parent x (hx.trans_le h1.le)).trans (h1.parent x hx), h2.closed ∘ h1.closed⟩

theorem newChildren_same (h : b.nrDentry = a.nrDentry) (x : Nat) : newChildren a b x = 0 := by
  rw [newChildren, h, Nat.sub_self]
  rfl

/-- **The new children of two stages.** -/
theorem newChildren_add (h1 : Adds a b) (h2 : Adds b c) (x : Nat) :
    newChildren a c x = newChildren a b x + newChildren b c x := by
  have hlen : c.nrDentry - a.nrDentry = (b.nrDentry - a.nrDentry) + (c.nrDentry - b.nrDentry) := by
    have h1 := h1.le
    have h2 := h2.le
    omega
  have hmid : a.nrDentry + (b.nrDentry - a.nrDentry) = b.nrDentry := Nat.add_sub_cancel' h1.le
  have hold : (List.range' a.nrDentry (b.nrDentry - a.nrDentry)).countP (fun y => c.parent y = x) = newChildren a b x := by
    refine List.countP_congr fun y hy => ?_
    have hlt : y < b.nrDentry := by
      have hy := (List.mem_range'_1.1 hy).2
      omega
    rw [h2.parent y hlt]
  rw [newChildren, hlen, ← List.range'_append_1, List.countP_append, hold, hmid]
  rfl

/-- A dentry has no children that are older. -/
theorem newChildren_of_le (ha : Closed b) (h : b.nrDentry ≤ x) : newChildren a b x = 0 := by
  refine List.countP_eq_zero.2 fun y hy => ?_
  have hy := List.mem_range'_1.1 hy
  have hlt : b.parent y < b.nrDentry := ha.parent y (by omega)
  simp only [decide_eq_true_eq]
  omega

/-! ## The references a call holds -/

/-- **The references of the call**: since `s`, each count moved by one for each new child and one for each time it is in `o`,
and none was lower than in `s`. -/
structure Ledger (s t : State) (o : List Nat) : Prop where
  adds : Adds s.fs t.fs
  closed : Closed t.fs
  owned : ∀ x ∈ o, x < t.fs.nrDentry
  count : ∀ x < t.fs.nrDentry,
    t.count x = (if x < s.fs.nrDentry then s.count x else 0) + newChildren s.fs t.fs x + o.count x
  low : ∀ x < s.fs.nrDentry, s.count x ≤ t.low x

theorem Ledger.start (hc : Closed s.fs) : Ledger s s.start [] where
  adds := .refl _
  closed := hc
  owned _ hx := absurd hx List.not_mem_nil
  count x hx := by
    show s.count x = _
    rw [if_pos (show x < s.fs.nrDentry from hx), newChildren_same (show s.start.fs.nrDentry = s.fs.nrDentry from rfl), List.count_nil]
    omega
  low _ _ := Int.le_refl _

theorem Ledger.perm (h : Ledger s t o) (hp : o.Perm o') : Ledger s t o' :=
  ⟨h.adds, h.closed, fun x hx => h.owned x (hp.mem_iff.2 hx), fun x hx => hp.count_eq x ▸ h.count x hx, h.low⟩

theorem Ledger.dget (h : Ledger s t o) (hd : d < t.fs.nrDentry) : Ledger s (t.dget d) (d :: o) := by
  refine ⟨h.adds, h.closed, fun x hx => ?_, fun x hx => ?_, h.low⟩
  · rcases List.mem_cons.1 hx with rfl | hx
    · exact hd
    · exact h.owned x hx
  · have hcount := h.count x hx
    by_cases hxd : x = d
    · subst hxd
      simp only [State.dget, Function.update_self, List.count_cons_self]
      rw [hcount]
      omega
    · simp only [State.dget, Function.update_of_ne hxd, List.count_cons_of_ne (Ne.symm hxd)]
      exact hcount

/-- **A reference the call holds can be dropped.** -/
theorem Ledger.dput (h : Ledger s t (d :: o)) : Ledger s (t.dput d) o := by
  have hd := h.owned d List.mem_cons_self
  have hcount := h.count d hd
  rw [List.count_cons_self] at hcount
  refine ⟨h.adds, h.closed, fun x hx => h.owned x (List.mem_cons_of_mem _ hx), fun x hx => ?_, fun x hx => ?_⟩
  · by_cases hxd : x = d
    · subst hxd
      simp only [State.dput, Function.update_self]
      rw [hcount]
      omega
    · have hx := h.count x hx
      rw [List.count_cons_of_ne (Ne.symm hxd)] at hx
      simp only [State.dput, Function.update_of_ne hxd]
      exact hx
  · have hlow := h.low x hx
    by_cases hxd : x = d
    · subst hxd
      rw [if_pos hx] at hcount
      simp only [State.dput, Function.update_self]
      omega
    · simp only [State.dput, Function.update_of_ne hxd]
      exact hlow

/-- The counts of the dentries that are there are what matters. -/
theorem Ledger.congr (h : Ledger s t o) (hfs : u.fs = t.fs) (hcount : ∀ x < t.fs.nrDentry, u.count x = t.count x)
    (hlow : u.low = t.low) : Ledger s u o :=
  ⟨hfs ▸ h.adds, hfs ▸ h.closed, hfs ▸ h.owned, fun x hx => by
    rw [hfs] at hx ⊢
    rw [hcount x hx]
    exact h.count x hx, hlow ▸ h.low⟩

/-- **The dentries that are added** come with one reference each, which the call holds. -/
theorem Ledger.grow (h : Ledger s t o) (ha : Adds t.fs a) :
    Ledger s (t.grow a) (List.range' t.fs.nrDentry (a.nrDentry - t.fs.nrDentry) ++ o) := by
  have hle := ha.le
  have hle' := h.adds.le
  refine ⟨h.adds.trans ha, ha.closed h.closed, fun x hx => ?_, fun x hx => ?_, h.low⟩
  · show x < a.nrDentry
    rcases List.mem_append.1 hx with hx | hx
    · have hx := (List.mem_range'_1.1 hx).2
      omega
    · exact (h.owned x hx).trans_le hle
  · have hx : x < a.nrDentry := hx
    show (if x < t.fs.nrDentry then t.count x else 1) + (newChildren t.fs a x : Int) =
      _ + (newChildren s.fs a x : Int) + _
    rw [newChildren_add h.adds ha, List.count_append]
    by_cases hxt : x < t.fs.nrDentry
    · have hno : x ∉ List.range' t.fs.nrDentry (a.nrDentry - t.fs.nrDentry) := fun hm =>
        absurd (List.mem_range'_1.1 hm).1 (Nat.not_le.2 hxt)
      rw [if_pos hxt, h.count x hxt, List.count_eq_zero_of_not_mem hno]
      omega
    · have hno : x ∉ o := fun hm => hxt (h.owned x hm)
      have hone : (List.range' t.fs.nrDentry (a.nrDentry - t.fs.nrDentry)).count x = 1 :=
        List.count_eq_one_of_mem (List.nodup_range' _) (List.mem_range'_1.2 (by omega))
      rw [if_neg hxt, if_neg (by omega), newChildren_of_le h.closed (Nat.le_of_not_lt hxt), hone,
        List.count_eq_zero_of_not_mem hno]
      omega

/-! ## One component -/

theorem adds_mem (a : Fs) (as : List Bool) : Adds a (withMem a as) :=
  ⟨Nat.le_refl _, fun _ _ => rfl, fun h => ⟨h.root, h.parent, h.child, h.mount⟩⟩

theorem adds_addDentry (hd : d < a.nrDentry) (n : Name) : Adds a (addDentry a d n) where
  le := Nat.le_succ _
  parent x hx := by rw [parent_addDentry hd, if_neg (Nat.ne_of_lt hx)]
  closed h := by
    have hnew : (addDentry a d n).nrDentry = a.nrDentry + 1 := rfl
    refine ⟨Nat.lt_succ_of_lt h.root, fun x hx => ?_, fun x hx c hc => ?_, fun m hm => Nat.lt_succ_of_lt (h.mount m hm)⟩
    · rw [parent_addDentry hd]
      split
      · exact Nat.lt_succ_of_lt hd
      · exact Nat.lt_succ_of_lt (h.parent x (by omega))
    · rw [subdirs_addDentry hd] at hc
      split at hc
      · nomatch hc
      · split at hc
        · rcases List.mem_cons.1 hc with rfl | hc
          · exact Nat.lt_succ_self _
          · exact Nat.lt_succ_of_lt (h.child d hd c hc)
        · exact Nat.lt_succ_of_lt (h.child x (by omega) c hc)

/-- A dentry is made, or there is no memory. -/
theorem dAlloc_cases (a : Fs) (hd : d < a.nrDentry) (n : Name) :
    (∃ as, Vfs.dAlloc a d n = (none, withMem a as)) ∨
    ∃ b, Vfs.dAlloc a d n = (some a.nrDentry, b) ∧ Adds a b ∧ b.nrDentry = a.nrDentry + 1 ∧ b.parent a.nrDentry = d ∧
      b.inode a.nrDentry = none := by
  rw [dAlloc_eq]
  split
  · have hadd := adds_addDentry (a := withMem a (leftFor a.kmalloc n)) hd n
    refine .inr ⟨_, rfl, (adds_mem a _).trans hadd, rfl, ?_, inode_addDentry_new _ _ _⟩
    exact (parent_addDentry (s := withMem a _) hd _).trans (if_pos rfl)
  · exact .inl ⟨_, rfl⟩

theorem newChildren_one (h : b.nrDentry = a.nrDentry + 1) (x : Nat) :
    newChildren a b x = if b.parent a.nrDentry = x then 1 else 0 := by
  rw [newChildren, h, Nat.add_sub_cancel_left]
  simp [List.countP_cons]

/-- **`d_alloc`** gives the call a reference to the new dentry, or leaves the counts. -/
theorem Ledger.dAlloc (h : Ledger s t o) (hd : d < t.fs.nrDentry) (n : Name) :
    (∃ b, Vfs.dAlloc t.fs d n = (none, b) ∧ PathRefs.dAlloc t d n = (none, { t with fs := b }) ∧
      Ledger s { t with fs := b } o) ∨
    ∃ b u, Vfs.dAlloc t.fs d n = (some t.fs.nrDentry, b) ∧ PathRefs.dAlloc t d n = (some t.fs.nrDentry, u) ∧ u.fs = b ∧
      b.nrDentry = t.fs.nrDentry + 1 ∧ b.inode t.fs.nrDentry = none ∧ Ledger s u (t.fs.nrDentry :: o) := by
  rcases dAlloc_cases t.fs hd n with ⟨as, hb⟩ | ⟨b, hb, ha, hnr, hpar, hino⟩
  · refine .inl ⟨_, hb, by rw [PathRefs.dAlloc, hb], ?_⟩
    exact ⟨h.adds.trans (adds_mem _ _), (adds_mem _ _).closed h.closed, h.owned, h.count, h.low⟩
  · refine .inr ⟨b, _, hb, by rw [PathRefs.dAlloc, hb], rfl, hnr, hino, ?_⟩
    have hg := h.grow ha
    rw [hnr, Nat.add_sub_cancel_left] at hg
    refine hg.congr rfl (fun x hx => ?_) rfl
    have hx : x < b.nrDentry := hx
    have hne : t.fs.nrDentry ≠ d := Nat.ne_of_gt hd
    have hnew := newChildren_one hnr x
    rw [hpar] at hnew
    show Function.update (Function.update t.count t.fs.nrDentry 1) d (Function.update t.count t.fs.nrDentry 1 d + 1) x =
      (if x < t.fs.nrDentry then t.count x else 1) + (newChildren t.fs b x : Int)
    rw [hnew, Function.update_of_ne hne.symm]
    by_cases hxd : x = d
    · subst hxd
      rw [Function.update_self, if_pos hd, if_pos rfl]
      rfl
    · rw [Function.update_of_ne hxd, if_neg (Ne.symm hxd)]
      by_cases hxn : x = t.fs.nrDentry
      · subst hxn
        rw [Function.update_self, if_neg (Nat.lt_irrefl _)]
        rfl
      · rw [Function.update_of_ne hxn, if_pos (by omega)]
        exact (Int.add_zero _).symm

theorem range'_eq_nil_iff (h : a.nrDentry ≤ b.nrDentry) :
    List.range' a.nrDentry (b.nrDentry - a.nrDentry) = [] ↔ b.nrDentry = a.nrDentry := by
  rw [List.range'_eq_nil_iff]
  omega

/-- **One component**: the call holds a reference to what it found, and to the dentries that stay behind. -/
theorem Ledger.lookupOne (op : LookupOp) (h : Ledger s t o) (hd : d < t.fs.nrDentry) (n : Name) : ∃ lk,
    Ledger s (lookupOne op t d n).2 ((lookupOne op t d n).1.toOption.toList ++ lk ++ o) ∧
    ∀ P, Found op t.fs d n P ↔ lk = [] ∧ ∀ c, (lookupOne op t d n).1 = .ok c → P (lookupOne op t d n).2.fs c := by
  unfold PathRefs.lookupOne Found PathRefs.dLookup
  cases hl : Vfs.dLookup t.fs d n with
  | some c =>
    refine ⟨[], h.dget (h.closed.child d hd c (dLookup_mem hl).1), fun P => ?_⟩
    exact ⟨fun hp => ⟨rfl, fun c' hc' => Except.ok.inj hc' ▸ hp⟩, fun hp => hp.2 c rfl⟩
  | none =>
    dsimp only
    unfold Missed
    rcases h.dAlloc hd n with ⟨b, hb, hal, hg⟩ | ⟨b, u, hb, hal, rfl, hnr, hino, hu⟩
    · rw [hb, hal]
      exact ⟨[], hg, fun P => iff_of_true trivial ⟨rfl, fun c hc => by cases hc⟩⟩
    · rw [hb, hal]
      dsimp only
      by_cases hhas : op.has u.fs d = true
      · have hadd := @op.adds u.fs d t.fs.nrDentry (by omega) (by omega)
        have hg := hu.grow hadd
        have hnew := range'_eq_nil_iff hadd.le
        simp only [hhas, if_true, true_and]
        generalize op.run u.fs d t.fs.nrDentry = r at hadd hg hnew
        obtain ⟨r, a⟩ := r
        cases r with
        | error e =>
          refine ⟨_, (hg.perm List.perm_middle).dput, fun P => ?_⟩
          exact ⟨fun hn => ⟨hnew.2 hn, fun c hc => by cases hc⟩, fun hp => hnew.1 hp.1⟩
        | ok _ =>
          dsimp only
          by_cases hneg : a.inode t.fs.nrDentry = none
          · rw [if_pos hneg]
            refine ⟨_ ++ [t.fs.nrDentry], by simpa [Except.toOption] using hg, fun P => iff_of_false (fun hp => hp.2.1 hneg) ?_⟩
            exact fun hp => absurd hp.1 (by simp)
          · rw [if_neg hneg]
            refine ⟨_, hg.perm List.perm_middle, fun P => ?_⟩
            constructor
            · rintro ⟨hn, -, hp⟩
              exact ⟨hnew.2 hn, fun c hc => Except.ok.inj hc ▸ hp⟩
            · rintro ⟨hn, hp⟩
              exact ⟨hnew.1 hn, hneg, hp _ rfl⟩
      · simp only [hhas, hino]
        exact ⟨[t.fs.nrDentry], hu, fun P => iff_of_false (fun hp => Bool.false_ne_true hp.1) fun hp => by cases hp.1⟩

theorem Ledger.dotdot (h : Ledger s t (d :: o)) : Ledger s (dotdot t d).2 ((dotdot t d).1 :: o) := by
  unfold PathRefs.dotdot
  split
  · exact h
  · have hp := h.closed.parent d (h.owned d List.mem_cons_self)
    exact ((h.dget hp).perm (List.Perm.swap _ _ _)).dput

theorem dotdot_fs (t : State) (d : Nat) : (dotdot t d).2.fs = t.fs ∧
    (dotdot t d).1 = if d = t.fs.rootDentry then d else t.fs.parent d := by
  unfold dotdot
  split <;> exact ⟨rfl, rfl⟩

theorem Ledger.crossMount (h : Ledger s t (d :: o)) : Ledger s (crossMount t d).2 ((crossMount t d).1 :: o) := by
  unfold PathRefs.crossMount
  split
  · rename_i m hm
    exact h.dput.dget (h.closed.mount m (List.mem_of_find?_eq_some hm))
  · exact h

theorem crossMount_fs (t : State) (d : Nat) : (crossMount t d).2.fs = t.fs ∧
    (crossMount t d).1 = Vfs.crossMount t.fs d := by
  unfold crossMount Vfs.crossMount
  cases t.fs.mountTable.find? fun m => m.1 = d with
  | none => exact ⟨rfl, rfl⟩
  | some m => exact ⟨rfl, rfl⟩

/-! ## The whole path -/

/-- **The component loop**: the call holds what it found, and what the components left behind, which is nothing exactly when
they are clean. -/
theorem Ledger.walkPath (op : LookupOp) (lookupParent : Bool) (P : Fs → Nat → Prop) : ∀ (cs : List Name) {t : State} {d : Nat} {o : List Nat},
    Ledger s t (d :: o) → ∃ lk,
      Ledger s (walkPath op lookupParent t d cs).2 ((walkPath op lookupParent t d cs).1.toOption.toList ++ lk ++ o) ∧
      (Clean op lookupParent P t.fs d cs ↔
        lk = [] ∧ ∀ c, (walkPath op lookupParent t d cs).1 = .ok c → P (walkPath op lookupParent t d cs).2.fs c) := by
  intro cs
  induction cs with
  | nil => exact fun h => ⟨[], h, fun hp => ⟨rfl, fun c hc => Except.ok.inj hc ▸ hp⟩, fun hp => hp.2 _ rfl⟩
  | cons n rest ih =>
    intro t d o h
    unfold PathRefs.walkPath Clean
    by_cases hlast : lookupParent = true ∧ rest = []
    · rw [if_pos hlast, if_pos hlast]
      exact ⟨[], h, fun hp => ⟨rfl, fun c hc => Except.ok.inj hc ▸ hp⟩, fun hp => hp.2 _ rfl⟩
    rw [if_neg hlast, if_neg hlast]
    by_cases hdot : n = ['.']
    · rw [if_pos hdot, if_pos hdot]
      exact ih h
    rw [if_neg hdot, if_neg hdot]
    by_cases hdd : n = ['.', '.']
    · rw [if_pos hdd, if_pos hdd]
      obtain ⟨lk, hg, hclean⟩ := ih h.dotdot
      have hat : Clean op lookupParent P t.fs (if d = t.fs.rootDentry then d else t.fs.parent d) rest ↔
          Clean op lookupParent P (PathRefs.dotdot t d).2.fs (PathRefs.dotdot t d).1 rest := by
        rw [(dotdot_fs t d).1, (dotdot_fs t d).2]
      exact ⟨lk, hg, hat.trans hclean⟩
    rw [if_neg hdd, if_neg hdd]
    obtain ⟨lk, hg, hfound⟩ := h.lookupOne op (h.owned d List.mem_cons_self) n
    rw [hfound]
    generalize PathRefs.lookupOne op t d n = r at hg ⊢
    obtain ⟨r, u⟩ := r
    cases r with
    | error e =>
      refine ⟨lk, (hg.perm List.perm_middle).dput, and_congr_right fun _ => iff_of_true ?_ ?_⟩
      · exact fun c hc => by cases hc
      · exact fun c hc => by cases hc
    | ok c =>
      have hg : Ledger s u (d :: c :: (lk ++ o)) := hg.perm List.perm_middle
      have hc := hg.dput.crossMount
      obtain ⟨lk', hg', hclean⟩ := ih hc
      have hat : Clean op lookupParent P u.fs (Vfs.crossMount u.fs c) rest ↔
          Clean op lookupParent P (PathRefs.crossMount (u.dput d) c).2.fs (PathRefs.crossMount (u.dput d) c).1 rest := by
        rw [(crossMount_fs _ _).1, (crossMount_fs _ _).2]
        rfl
      refine ⟨lk' ++ lk, by simpa only [List.append_assoc] using hg', ?_⟩
      rw [List.append_eq_nil_iff, and_comm (a := lk' = []), and_assoc]
      refine and_congr_right fun _ => Iff.trans ?_ (hat.trans hclean)
      exact ⟨fun hp => hp c rfl, fun hp c' hc' => Except.ok.inj hc' ▸ hp⟩

/-- The component loop over a target drops nothing that it took. -/
theorem Ledger.walkTarget (op : LookupOp) : ∀ (cs : List Name) {t : State} {d : Nat} {o : List Nat}, Ledger s t o → d < t.fs.nrDentry →
    ∃ v, Ledger s (walkTarget op t d cs).2 (v ++ o) ∧ ∀ c, (walkTarget op t d cs).1 = .ok c →
      c < (walkTarget op t d cs).2.fs.nrDentry ∧ (v = [] → (walkTarget op t d cs).2 = t) := by
  intro cs
  induction cs with
  | nil => exact fun h hd => ⟨[], h, fun c hc => ⟨Except.ok.inj hc ▸ hd, fun _ => rfl⟩⟩
  | cons n rest ih =>
    intro t d o h hd
    -- after a reference to a dentry was taken, the list is no longer empty
    have hstep : ∀ {u : State} {v : List Nat} {c : Nat}, Ledger s u (v ++ c :: o) → c < u.fs.nrDentry →
        ∃ w, Ledger s (PathRefs.walkTarget op u c rest).2 (w ++ o) ∧ ∀ e, (PathRefs.walkTarget op u c rest).1 = .ok e →
          e < (PathRefs.walkTarget op u c rest).2.fs.nrDentry ∧ (w = [] → (PathRefs.walkTarget op u c rest).2 = t) := by
      intro u v c hu hc
      obtain ⟨w, hg, hok⟩ := ih hu hc
      refine ⟨w ++ (v ++ [c]), by simpa using hg, fun e he => ⟨(hok e he).1, fun hn => absurd hn (by simp)⟩⟩
    unfold PathRefs.walkTarget PathRefs.dLookup
    cases hl : Vfs.dLookup t.fs d n with
    | some c =>
      have hc := h.closed.child d hd c (dLookup_mem hl).1
      exact hstep (v := []) (h.dget hc) hc
    | none =>
      dsimp only
      split
      · rcases h.dAlloc hd n with ⟨b, -, hal, hg⟩ | ⟨b, u, -, hal, rfl, hnr, -, hu⟩
        · rw [hal]
          exact ⟨[], hg, fun c hc => by cases hc⟩
        · rw [hal]
          dsimp only
          have hadd := @op.adds u.fs d t.fs.nrDentry (by omega) (by omega)
          have hg := hu.grow hadd
          generalize op.run u.fs d t.fs.nrDentry = r at hadd hg
          obtain ⟨r, a⟩ := r
          cases r with
          | error e => exact ⟨_, (hg.perm List.perm_middle).dput, fun c hc => by cases hc⟩
          | ok _ => exact hstep hg (hg.owned _ (List.mem_append_right _ List.mem_cons_self))
      · exact ⟨[], h, fun c hc => by cases hc⟩

/-- **Following links** drops nothing, and does not end at a link. -/
theorem Ledger.followLinks (op : LookupOp) : ∀ (fuel : Nat) {t : State} {d : Nat} {o : List Nat}, Ledger s t o → d < t.fs.nrDentry →
    ∃ v, Ledger s (followLinks op fuel t d).2 (v ++ o) ∧ ∀ c, (followLinks op fuel t d).1 = .ok c →
      c < (followLinks op fuel t d).2.fs.nrDentry ∧ isSymlink (followLinks op fuel t d).2.fs c = false ∧
      (v = [] → (followLinks op fuel t d).2 = t) := by
  intro fuel
  induction fuel with
  | zero =>
    intro t d o h hd
    unfold PathRefs.followLinks
    by_cases hlink : isSymlink t.fs d = true
    · rw [if_pos hlink]
      exact ⟨[], h, fun c hc => by cases hc⟩
    · rw [if_neg hlink]
      exact ⟨[], h, fun c hc => Except.ok.inj hc ▸ ⟨hd, eq_false_of_ne_true hlink, fun _ => rfl⟩⟩
  | succ fuel ih =>
    intro t d o h hd
    unfold PathRefs.followLinks
    by_cases hlink : isSymlink t.fs d = true
    · rw [if_pos hlink]
      dsimp only
      split
      · split
        · rename_i target _ _
          obtain ⟨v, hg, hok⟩ := h.walkTarget op (targetComponents target) h.closed.root
          generalize PathRefs.walkTarget op t t.fs.rootDentry (targetComponents target) = r at hg hok
          obtain ⟨r, u⟩ := r
          cases r with
          | error e => exact ⟨v, hg, fun c hc => by cases hc⟩
          | ok e =>
            obtain ⟨he, hsame⟩ := hok e rfl
            obtain ⟨w, hg', hok'⟩ := ih hg he
            refine ⟨w ++ v, by rwa [List.append_assoc], fun c hc => ?_⟩
            obtain ⟨hlt, hno, hsame'⟩ := hok' c hc
            refine ⟨hlt, hno, fun hn => ?_⟩
            obtain ⟨hw, hv⟩ := List.append_eq_nil_iff.1 hn
            exact (hsame' hw).trans (hsame hv)
        · exact ⟨[], h, fun c hc => by cases hc⟩
      · exact ⟨[], h, fun c hc => by cases hc⟩
    · rw [if_neg hlink]
      exact ⟨[], h, fun c hc => Except.ok.inj hc ▸ ⟨hd, eq_false_of_ne_true hlink, fun _ => rfl⟩⟩

/-- **Neutral is: what the call holds at its end is what it returns.** -/
theorem Ledger.neutral_iff {q : Except Int Nat × State} (h : Ledger s q.2 o)
    (hret : ∀ c, q.1 = .ok c → c < q.2.fs.nrDentry) : Neutral s q ↔ o.Perm q.1.toOption.toList := by
  have hone : ∀ x, (q.1.toOption.toList.count x : Int) = if q.1.toOption = some x then 1 else 0 := by
    intro x
    cases q.1.toOption with
    | none => rfl
    | some c =>
      simp only [Option.toList_some, List.count_singleton, beq_iff_eq, Option.some.injEq]
      split <;> rfl
  constructor
  · refine fun hn => List.perm_iff_count.2 fun x => ?_
    by_cases hx : x < q.2.fs.nrDentry
    · have h1 := h.count x hx
      have h2 := hn.count x hx
      rw [← hone] at h2
      omega
    · have hno : x ∉ q.1.toOption.toList := by
        intro hm
        cases hq : q.1 with
        | error e =>
          rw [hq] at hm
          cases hm
        | ok c =>
          rw [hq] at hm
          exact hx (List.mem_singleton.1 hm ▸ hret c hq)
      rw [List.count_eq_zero_of_not_mem hno, List.count_eq_zero_of_not_mem fun hm => hx (h.owned x hm)]
  · refine fun hp => ⟨fun x hx => ?_, h.low⟩
    rw [← hone, ← hp.count_eq x]
    exact h.count x hx

/-- **A call is neutral exactly when every component it looks up is found and it has no link to follow.** -/
theorem kernPath_neutral_iff (op : LookupOp) (hc : Closed s.fs) (path : List Char) (flags : LookupFlags) :
    Neutral s (kernPath op s path flags) ↔ NoTrace op s.fs path flags := by
  have h0 := (Ledger.start hc).dget hc.root
  obtain ⟨lk, hg, hclean⟩ := h0.walkPath op flags.parent
    (fun t d => flags.follow = true → isSymlink t d = false) (components path)
  unfold NoTrace kernPath
  refine Iff.trans ?_ hclean.symm
  clear hclean
  generalize walkPath op flags.parent _ s.fs.rootDentry (components path) = r at hg
  obtain ⟨r, t⟩ := r
  cases r with
  | error e =>
    rw [Ledger.neutral_iff hg fun c hc => by cases hc]
    simp [Except.toOption]
  | ok d =>
    have hd : d < t.fs.nrDentry := hg.owned d List.mem_cons_self
    have hend : Neutral s (.ok d, t) ↔ lk = [] := by
      rw [Ledger.neutral_iff hg fun c hc => Except.ok.inj hc ▸ hd]
      simp [Except.toOption]
    dsimp only
    by_cases hf : flags.follow = true
    · rw [if_pos hf]
      by_cases hlink : isSymlink t.fs d = true
      · refine iff_of_false (fun hn => ?_) fun hp => ?_
        · obtain ⟨v, hv, hok⟩ := hg.followLinks op 8 hd
          have hperm := (Ledger.neutral_iff hv fun c hc => (hok c hc).1).1 hn
          generalize followLinks op 8 t d = q at hok hperm
          obtain ⟨q, u⟩ := q
          cases q with
          | error e => exact absurd hperm.length_eq (by simp [Except.toOption])
          | ok c =>
            obtain ⟨-, hno, hsame⟩ := hok c rfl
            have hlen : v.length + (lk.length + 1) = 1 := by simpa [Except.toOption] using hperm.length_eq
            obtain rfl : v = [] := List.eq_nil_of_length_eq_zero (by omega)
            obtain rfl : lk = [] := List.eq_nil_of_length_eq_zero (by omega)
            have hcd : d = c := by simpa [Except.toOption] using hperm
            rw [hsame rfl, ← hcd, hlink] at hno
            cases hno
        · exact absurd (hp.2 d rfl hf) (ne_false_of_eq_true hlink)
      · rw [PathRefs.followLinks, if_neg hlink, hend]
        exact (and_iff_left fun c hc _ => Except.ok.inj hc ▸ eq_false_of_ne_true hlink).symm
    · rw [if_neg hf, hend]
      exact (and_iff_left fun _ _ hf' => absurd hf' hf).symm

/-! ## Over ramfs -/

theorem closed_of_wf {s : Fs} (hs : Wf s) : Closed s :=
  ⟨hs.root.1, hs.parent_lt, fun x _ c hc => (hs.child x c hc).2.2, fun m hm => (hs.mount m hm).2.1⟩

theorem inode_dInstantiate (s : Fs) (d : Nat) (i : Option Nat) (x : Nat) :
    (dInstantiate s d i).parent x = s.parent x ∧ (dInstantiate s d i).subdirs x = s.subdirs x := by
  unfold dInstantiate Fs.parent Fs.subdirs Fs.setDentry
  by_cases hx : x = d
  · subst hx
    simp only [Function.update_self, and_self]
  · simp only [Function.update_of_ne hx, and_self]

theorem adds_ramfsLookup (s : Fs) (d : Nat) : Adds s (ramfsLookup s d) where
  le := Nat.le_refl _
  parent x _ := (inode_dInstantiate s d none x).1
  closed h := ⟨h.root, fun x hx => ((inode_dInstantiate s d none x).1).symm ▸ h.parent x hx,
    fun x hx => ((inode_dInstantiate s d none x).2).symm ▸ h.child x hx, h.mount⟩

/-- The `lookup` of ramfs directories. -/
def ramfsOp : LookupOp where
  has s dir := isRamfsDir s (s.inode dir)
  run s _ d := (.ok (), ramfsLookup s d)
  adds _ _ := adds_ramfsLookup _ _

/-- The result of a counted call, without the counts. -/
def forget (q : Except Int Nat × State) : Except Int Nat × Fs := (q.1, q.2.fs)

theorem forget_lookupOne (s : State) (dir : Nat) (n : Name) : forget (lookupOne ramfsOp s dir n) = Vfs.lookupOne s.fs dir n := by
  unfold lookupOne Vfs.lookupOne dLookup
  cases hl : Vfs.dLookup s.fs dir n with
  | some c => rfl
  | none =>
    dsimp only
    unfold dAlloc
    rcases hd : Vfs.dAlloc s.fs dir n with ⟨_ | d, t⟩
    · rfl
    · by_cases hdir : isRamfsDir t (t.inode dir) = true
      · simp only [hdir, show ramfsOp.has t dir = true from hdir, State.dget, if_true]
        dsimp only [ramfsOp]
        split <;> rfl
      · simp only [hdir, show ¬ ramfsOp.has t dir = true from hdir, State.dget, if_false, Bool.false_eq_true]
        by_cases hneg : t.inode d = none
        · exact (congrArg forget (if_pos hneg)).trans (if_pos hneg).symm
        · exact (congrArg forget (if_neg hneg)).trans (if_neg hneg).symm

theorem forget_walkPath (b : Bool) : ∀ (cs : List Name) (s : State) (d : Nat),
    forget (walkPath ramfsOp b s d cs) = Vfs.walkPath b s.fs d cs := by
  intro cs
  induction cs with
  | nil => exact fun _ _ => rfl
  | cons n rest ih =>
    intro s d
    unfold walkPath Vfs.walkPath
    split
    · rfl
    split
    · exact ih s d
    split
    · rw [ih, (dotdot_fs s d).1, (dotdot_fs s d).2]
    rw [← forget_lookupOne]
    rcases lookupOne ramfsOp s d n with ⟨e | c, t⟩
    · rfl
    · refine (ih _ _).trans ?_
      rw [(crossMount_fs _ _).1, (crossMount_fs _ _).2]
      rfl

theorem forget_walkTarget : ∀ (cs : List Name) (s : State) (d : Nat),
    forget (walkTarget ramfsOp s d cs) = Vfs.walkTarget s.fs d cs := by
  intro cs
  induction cs with
  | nil => exact fun _ _ => rfl
  | cons n rest ih =>
    intro s d
    unfold walkTarget Vfs.walkTarget dLookup
    cases Vfs.dLookup s.fs d n with
    | some c => exact ih _ c
    | none =>
      by_cases hdir : isRamfsDir s.fs (s.fs.inode d) = true
      · simp only [if_pos hdir]
        rw [if_pos (show ramfsOp.has _ d = true from hdir)]
        unfold dAlloc
        rcases Vfs.dAlloc s.fs d n with ⟨_ | c, t⟩
        · rfl
        · exact ih _ c
      · simp only [if_neg hdir]
        rw [if_neg (show ¬ ramfsOp.has _ d = true from hdir)]
        rfl

theorem forget_followLinks : ∀ (fuel : Nat) (s : State) (d : Nat),
    forget (followLinks ramfsOp fuel s d) = Vfs.followLinks fuel s.fs d := by
  intro fuel
  induction fuel with
  | zero =>
    intro s d
    unfold followLinks Vfs.followLinks
    split <;> rfl
  | succ fuel ih =>
    intro s d
    unfold followLinks Vfs.followLinks
    by_cases hlink : isSymlink s.fs d = true
    · simp only [if_pos hlink]
      rcases (s.fs.inode d).map fun i => (s.fs.inodes i).iPrivate with _ | _ | target | _
      · rfl
      · rfl
      · dsimp only
        by_cases habs : target.head? = some '/'
        · simp only [if_pos habs]
          rw [← forget_walkTarget]
          rcases walkTarget ramfsOp s s.fs.rootDentry _ with ⟨e | c, t⟩
          · rfl
          · exact ih t c
        · simp only [if_neg habs]
          rfl
      · rfl
    · simp only [if_neg hlink]
      rfl

/-- **The counts are only kept beside the tree**: without them, the call is that of `Vfs`. -/
theorem forget_kernPath (s : State) (path : List Char) (flags : LookupFlags) :
    forget (kernPath ramfsOp s path flags) = Vfs.kernPath s.fs path flags := by
  unfold kernPath Vfs.kernPath
  have hwalk := forget_walkPath flags.parent (components path) (s.start.dget s.fs.rootDentry) s.fs.rootDentry
  rw [show (s.start.dget s.fs.rootDentry).fs = s.fs from rfl] at hwalk
  rw [← hwalk]
  rcases walkPath ramfsOp flags.parent _ _ _ with ⟨e | d, t⟩
  · rfl
  · simp only [forget]
    split
    · exact forget_followLinks 8 t d
    · rfl

/-! ## Two calls -/

/-- A directory that is the target of a link. -/
def linkedFs : Fs := (Call.symlink ['/', 'd'] ['/', 'l']).run ((Call.mkdir ['/', 'd'] 0x1ED).run (rootfs []))

theorem closed_linkedFs : Closed linkedFs := closed_of_wf (((wf_rootfs []).call _).call _)

/-- Every dentry with one reference of its own. -/
def linked : State := ⟨linkedFs, fun x => 1 + (linkedFs.subdirs x).length, fun _ => 0⟩

theorem kernPath_neutral_iff_dir : Neutral linked (kernPath ramfsOp linked ['/', 'd', '/', '.', '.', '/', 'd'] lookupFollow) :=
  (kernPath_neutral_iff ramfsOp (s := linked) closed_linkedFs ['/', 'd', '/', '.', '.', '/', 'd'] lookupFollow).2
    fun _ => by decide +kernel

/-- A followed link keeps its reference, and `/` is returned without one; a missing entry keeps its own. -/
theorem not_neutral : Closed linked.fs ∧
    (kernPath ramfsOp linked ['/', 'l'] lookupFollow).1 = .ok 1 ∧ ¬ Neutral linked (kernPath ramfsOp linked ['/', 'l'] lookupFollow) ∧
    (kernPath ramfsOp linked ['/', 'x'] lookupNone).1 = .error (-enoent) ∧
    ¬ Neutral linked (kernPath ramfsOp linked ['/', 'x'] lookupNone) := by
  refine ⟨closed_linkedFs, by decide +kernel, fun h => ?_, by decide +kernel, fun h => ?_⟩
  · exact absurd (h.count 2 (by decide +kernel)) (by decide +kernel)
  · exact absurd (h.count 3 (by decide +kernel)) (by decide +kernel)

end PathRefs
end Pico
