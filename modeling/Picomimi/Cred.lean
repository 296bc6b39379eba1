import Picomimi.Lib.Run
/-!
# Cred — the credential calls of `kernel/cred.c` and `kernel/syscall_stubs.c`

Nine system calls change a task's credentials.  Those of `cred.c` test the capability or the ids asked for; `setreuid`,
`setregid`, `setfsuid` and `setfsgid`, in `syscall_stubs.c`, test nothing.  A task without `CAP_SETUID` and `CAP_SETGID`
keeps to the ids it started with exactly while these four ask for no others (`confined_iff_of_run`).
-/
namespace Pico
namespace Cred

open Lib

def eperm : Int := 1
def enomem : Int := 12
def einval : Int := 22

def ngroupsMax : Int := 32
def capSetgid : UInt64 := 0x40
def capSetuid : UInt64 := 0x80

/-- `(uid_t)-1`. -/
def noId : UInt32 := 0xFFFFFFFF

/-- The four ids of a task of one kind: `uid`, `euid`, `suid` and `fsuid`, or the four of its groups. -/
structure Ids where
  id : UInt32
  eid : UInt32
  sid : UInt32
  fsid : UInt32
deriving DecidableEq

structure Caps where
  permitted : UInt64
  effective : UInt64
  inheritable : UInt64
  bset : UInt64
deriving DecidableEq

/-- `cred_t`, of a task that has its own copy; of `groups` the first `ngroups`. -/
structure Cred where
  user : Ids
  group : Ids
  groups : List UInt32
  caps : Caps

/-- `prepare_cred` or `copy_cred_for_write`, when `mem`; then the change, if it is allowed. -/
def change (mem : Bool) (c : Cred) (new : Option Cred) : Int × Cred :=
  if !mem then (-enomem, c)
  else
    match new with
    | none => (-eperm, c)
    | some new => (0, new)

/-- `sys_setuid` on one kind of id. -/
def setId (privileged : Bool) (ids : Ids) (x : UInt32) : Option Ids :=
  if privileged then some ⟨x, x, x, x⟩
  else if x ≠ ids.id ∧ x ≠ ids.sid then none
  else some { ids with eid := x, fsid := x }

/-- What the unprivileged `sys_setresuid` refuses. -/
def NotOwn (ids : Ids) (x : UInt32) : Prop := x ≠ noId ∧ x ≠ ids.id ∧ x ≠ ids.eid ∧ x ≠ ids.sid

instance (ids : Ids) (x : UInt32) : Decidable (NotOwn ids x) := inferInstanceAs (Decidable (_ ∧ _ ∧ _ ∧ _))

/-- `sys_setresuid` on one kind of id. -/
def setResId (privileged : Bool) (ids : Ids) (r e s : UInt32) : Option Ids :=
  if privileged = false ∧ (NotOwn ids r ∨ NotOwn ids e ∨ NotOwn ids s) then none
  else some
    { id := if r ≠ noId then r else ids.id
      eid := if e ≠ noId then e else ids.eid
      sid := if s ≠ noId then s else ids.sid
      fsid := if e ≠ noId then e else ids.fsid }

/-- `sys_setreuid` on one kind of id: no test. -/
def setReId (ids : Ids) (r e : UInt32) : Ids :=
  { ids with
    id := if r ≠ noId then r else ids.id
    eid := if e ≠ noId then e else ids.eid }

def hasCap (c : Cred) (cap : UInt64) : Bool := c.caps.effective &&& cap ≠ 0

def sysSetuid (c : Cred) (mem : Bool) (uid : UInt32) : Int × Cred :=
  change mem c ((setId (hasCap c capSetuid) c.user uid).map fun ids => { c with user := ids })

def sysSetgid (c : Cred) (mem : Bool) (gid : UInt32) : Int × Cred :=
  change mem c ((setId (hasCap c capSetgid) c.group gid).map fun ids => { c with group := ids })

def sysSetresuid (c : Cred) (mem : Bool) (ruid euid suid : UInt32) : Int × Cred :=
  change mem c ((setResId (hasCap c capSetuid) c.user ruid euid suid).map fun ids => { c with user := ids })

def sysSetresgid (c : Cred) (mem : Bool) (rgid egid sgid : UInt32) : Int × Cred :=
  change mem c ((setResId (hasCap c capSetgid) c.group rgid egid sgid).map fun ids => { c with group := ids })

def sysSetgroups (c : Cred) (mem : Bool) (size : Int) (list : Nat → UInt32) : Int × Cred :=
  if size < 0 ∨ ngroupsMax < size then (-einval, c)
  else change mem c
    (if hasCap c capSetgid then some { c with groups := (List.range size.toNat).map list } else none)

def sysSetreuid (c : Cred) (mem : Bool) (ruid euid : UInt32) : Int × Cred :=
  change mem c (some { c with user := setReId c.user ruid euid })

def sysSetregid (c : Cred) (mem : Bool) (rgid egid : UInt32) : Int × Cred :=
  change mem c (some { c with group := setReId c.group rgid egid })

/-- It returns the old id, also when there is no memory. -/
def sysSetfsuid (c : Cred) (mem : Bool) (fsuid : UInt32) : Int × Cred :=
  (c.user.fsid.toNat, (change mem c (some { c with user := { c.user with fsid := fsuid } })).2)

def sysSetfsgid (c : Cred) (mem : Bool) (fsgid : UInt32) : Int × Cred :=
  (c.group.fsid.toNat, (change mem c (some { c with group := { c.group with fsid := fsgid } })).2)

/-- A call, and whether there is memory for the new credentials. -/
inductive Call where
  | setuid (mem : Bool) (uid : UInt32)
  | setgid (mem : Bool) (gid : UInt32)
  | setresuid (mem : Bool) (ruid euid suid : UInt32)
  | setresgid (mem : Bool) (rgid egid sgid : UInt32)
  | setgroups (mem : Bool) (size : Int) (list : Nat → UInt32)
  | setreuid (mem : Bool) (ruid euid : UInt32)
  | setregid (mem : Bool) (rgid egid : UInt32)
  | setfsuid (mem : Bool) (fsuid : UInt32)
  | setfsgid (mem : Bool) (fsgid : UInt32)

def credStep (c : Cred) : Call → Int × Cred
  | .setuid mem uid => sysSetuid c mem uid
  | .setgid mem gid => sysSetgid c mem gid
  | .setresuid mem ruid euid suid => sysSetresuid c mem ruid euid suid
  | .setresgid mem rgid egid sgid => sysSetresgid c mem rgid egid sgid
  | .setgroups mem size list => sysSetgroups c mem size list
  | .setreuid mem ruid euid => sysSetreuid c mem ruid euid
  | .setregid mem rgid egid => sysSetregid c mem rgid egid
  | .setfsuid mem fsuid => sysSetfsuid c mem fsuid
  | .setfsgid mem fsgid => sysSetfsgid c mem fsgid

/-- A task without the two capabilities, and the calls it makes. -/
def credMachine : Machine Cred Call where
  init c := hasCap c capSetuid = false ∧ hasCap c capSetgid = false
  step c a := some (credStep c a).2

/-! ## Confinement -/

/-- One of the real, effective and saved ids. -/
def Ids.Own (start : Ids) (x : UInt32) : Prop := x = start.id ∨ x = start.eid ∨ x = start.sid

instance (start : Ids) (x : UInt32) : Decidable (start.Own x) := inferInstanceAs (Decidable (_ ∨ _ ∨ _))

structure Ids.Within (start ids : Ids) : Prop where
  id : start.Own ids.id
  eid : start.Own ids.eid
  sid : start.Own ids.sid
  fsid : start.Own ids.fsid

/-- No capability that `start` has not. -/
structure Caps.Le (caps start : Caps) : Prop where
  permitted : caps.permitted &&& start.permitted = caps.permitted
  effective : caps.effective &&& start.effective = caps.effective
  inheritable : caps.inheritable &&& start.inheritable = caps.inheritable
  bset : caps.bset &&& start.bset = caps.bset

/-- **A task that keeps to what it started with.** -/
structure Confined (start c : Cred) : Prop where
  user : start.user.Within c.user
  group : start.group.Within c.group
  groups : c.groups = start.groups
  caps : c.caps.Le start.caps

/-- Left alone, or an id of the start. -/
def Ids.Asks (start : Ids) (x : UInt32) : Prop := x = noId ∨ start.Own x

instance (start : Ids) (x : UInt32) : Decidable (start.Asks x) := inferInstanceAs (Decidable (_ ∨ _))

/-- **The four calls without a test ask for ids of the start only.** -/
def Allowed (start : Cred) : Call → Prop
  | .setreuid mem ruid euid => mem = true → start.user.Asks ruid ∧ start.user.Asks euid
  | .setregid mem rgid egid => mem = true → start.group.Asks rgid ∧ start.group.Asks egid
  | .setfsuid mem fsuid => mem = true → start.user.Own fsuid
  | .setfsgid mem fsgid => mem = true → start.group.Own fsgid
  | _ => True

variable {start c : Cred} {ids s : Ids}

theorem Caps.Le.refl (caps : Caps) : caps.Le caps := ⟨UInt64.and_self, UInt64.and_self, UInt64.and_self, UInt64.and_self⟩

/-- A capability the start lacks, a confined task lacks. -/
theorem Confined.hasCap_eq_false (h : Confined start c) {cap : UInt64} (h0 : hasCap start cap = false) :
    hasCap c cap = false := by
  simp only [hasCap, ne_eq, decide_not, Bool.not_eq_eq_eq_not, Bool.not_false, decide_eq_true_eq] at h0 ⊢
  rw [← h.caps.effective, UInt64.and_assoc, h0, UInt64.and_zero]

theorem Ids.Within.own_of_not_notOwn (h : s.Within ids) {x : UInt32} (hx : ¬NotOwn ids x) (h1 : x ≠ noId) : s.Own x := by
  by_cases hid : x = ids.id
  · exact hid ▸ h.id
  by_cases heid : x = ids.eid
  · exact heid ▸ h.eid
  by_cases hsid : x = ids.sid
  · exact hsid ▸ h.sid
  · exact absurd ⟨h1, hid, heid, hsid⟩ hx

/-- **An unprivileged `setuid`** moves the real or the saved id. -/
theorem Ids.Within.setId (h : s.Within ids) {x : UInt32} {ids' : Ids} (hset : setId false ids x = some ids') :
    s.Within ids' := by
  unfold Cred.setId at hset
  rw [if_neg (by decide)] at hset
  by_cases hx : x ≠ ids.id ∧ x ≠ ids.sid
  · rw [if_pos hx] at hset
    cases hset
  · rw [if_neg hx] at hset
    have hown : s.Own x := by
      by_cases hid : x = ids.id
      · exact hid ▸ h.id
      · have hsid : x = ids.sid := Decidable.byContradiction fun hsid => hx ⟨hid, hsid⟩
        exact hsid ▸ h.sid
    cases hset
    exact ⟨h.id, hown, h.sid, hown⟩

/-- **An unprivileged `setresuid`** permutes the ids it has. -/
theorem Ids.Within.setResId (h : s.Within ids) {r e x : UInt32} {ids' : Ids}
    (hset : setResId false ids r e x = some ids') : s.Within ids' := by
  unfold Cred.setResId at hset
  by_cases hno : NotOwn ids r ∨ NotOwn ids e ∨ NotOwn ids x
  · rw [if_pos ⟨rfl, hno⟩] at hset
    cases hset
  · rw [if_neg (fun hc => hno hc.2)] at hset
    have hpick : ∀ {y old : UInt32}, ¬NotOwn ids y → s.Own old → s.Own (if y ≠ noId then y else old) := by
      intro y old hy hold
      by_cases h1 : y ≠ noId
      · rw [if_pos h1]
        exact h.own_of_not_notOwn hy h1
      · rw [if_neg h1]
        exact hold
    simp only [not_or] at hno
    cases hset
    exact ⟨hpick hno.1 h.id, hpick hno.2.1 h.eid, hpick hno.2.2 h.sid, hpick hno.2.1 h.fsid⟩

/-- **`setreuid` keeps to the start's ids exactly when it asks for them.** -/
theorem Ids.Within.setReId_iff (h : s.Within ids) (r e : UInt32) :
    s.Within (setReId ids r e) ↔ s.Asks r ∧ s.Asks e := by
  have hpick : ∀ {y old : UInt32}, s.Own old → (s.Own (if y ≠ noId then y else old) ↔ s.Asks y) := by
    intro y old hold
    by_cases h1 : y = noId
    · rw [if_neg (Decidable.not_not.2 h1)]
      exact iff_of_true hold (.inl h1)
    · rw [if_pos h1]
      exact ⟨.inr, fun hy => hy.resolve_left h1⟩
  constructor
  · intro hw
    exact ⟨(hpick h.id).1 hw.id, (hpick h.eid).1 hw.eid⟩
  · rintro ⟨hr, he⟩
    exact ⟨(hpick h.id).2 hr, (hpick h.eid).2 he, h.sid, h.fsid⟩

theorem Confined.withUser (h : Confined start c) : Confined start { c with user := ids } ↔ start.user.Within ids :=
  ⟨fun hc => hc.user, fun hw => ⟨hw, h.group, h.groups, h.caps⟩⟩

theorem Confined.withGroup (h : Confined start c) : Confined start { c with group := ids } ↔ start.group.Within ids :=
  ⟨fun hc => hc.group, fun hw => ⟨h.user, hw, h.groups, h.caps⟩⟩

/-- A tested change: what it lets through is confined. -/
theorem Confined.change (h : Confined start c) {new : Option Cred} (hnew : ∀ c' ∈ new, Confined start c') (mem : Bool) :
    Confined start (change mem c new).2 := by
  cases mem with
  | false => exact h
  | true =>
    cases new with
    | none => exact h
    | some c' => exact hnew c' rfl

/-- An untested change. -/
theorem Confined.change_some (h : Confined start c) {c' : Cred} (mem : Bool) :
    Confined start (Cred.change mem c (some c')).2 ↔ (mem = true → Confined start c') := by
  cases mem with
  | false => exact iff_of_true h fun hm => by cases hm
  | true => exact ⟨fun hc _ => hc, fun hc => hc rfl⟩

/-- **One call of a confined task**: the tested calls keep it confined, the others when they ask for ids of the start. -/
theorem Confined.step_iff (h : Confined start c) (hu : hasCap start capSetuid = false)
    (hg : hasCap start capSetgid = false) (a : Call) : Confined start (credStep c a).2 ↔ Allowed start a := by
  have hu' := h.hasCap_eq_false hu
  have hg' := h.hasCap_eq_false hg
  cases a with
  | setuid mem uid =>
    refine iff_of_true (h.change (fun c' hc' => ?_) mem) trivial
    rw [hu'] at hc'
    obtain ⟨ids', hids, rfl⟩ := Option.map_eq_some_iff.1 hc'
    exact h.withUser.2 (h.user.setId hids)
  | setgid mem gid =>
    refine iff_of_true (h.change (fun c' hc' => ?_) mem) trivial
    rw [hg'] at hc'
    obtain ⟨ids', hids, rfl⟩ := Option.map_eq_some_iff.1 hc'
    exact h.withGroup.2 (h.group.setId hids)
  | setresuid mem ruid euid suid =>
    refine iff_of_true (h.change (fun c' hc' => ?_) mem) trivial
    rw [hu'] at hc'
    obtain ⟨ids', hids, rfl⟩ := Option.map_eq_some_iff.1 hc'
    exact h.withUser.2 (h.user.setResId hids)
  | setresgid mem rgid egid sgid =>
    refine iff_of_true (h.change (fun c' hc' => ?_) mem) trivial
    rw [hg'] at hc'
    obtain ⟨ids', hids, rfl⟩ := Option.map_eq_some_iff.1 hc'
    exact h.withGroup.2 (h.group.setResId hids)
  | setgroups mem size list =>
    refine iff_of_true ?_ trivial
    show Confined start (sysSetgroups c mem size list).2
    unfold sysSetgroups
    by_cases hs : size < 0 ∨ ngroupsMax < size
    · rw [if_pos hs]
      exact h
    · rw [if_neg hs, hg']
      exact h.change (fun c' hc' => by cases hc') mem
  | setreuid mem ruid euid =>
    exact (h.change_some mem).trans (imp_congr_right fun _ => h.withUser.trans (h.user.setReId_iff ruid euid))
  | setregid mem rgid egid =>
    exact (h.change_some mem).trans (imp_congr_right fun _ => h.withGroup.trans (h.group.setReId_iff rgid egid))
  | setfsuid mem fsuid =>
    refine (h.change_some mem).trans (imp_congr_right fun _ => h.withUser.trans ?_)
    exact ⟨fun hw => hw.fsid, fun hx => ⟨h.user.id, h.user.eid, h.user.sid, hx⟩⟩
  | setfsgid mem fsgid =>
    refine (h.change_some mem).trans (imp_congr_right fun _ => h.withGroup.trans ?_)
    exact ⟨fun hw => hw.fsid, fun hx => ⟨h.group.id, h.group.eid, h.group.sid, hx⟩⟩

/-- The file-system ids, too, are among the start's. -/
def FsOwn (start : Cred) : Prop := start.user.Own start.user.fsid ∧ start.group.Own start.group.fsid

theorem confined_self_iff (start : Cred) : Confined start start ↔ FsOwn start := by
  constructor
  · intro h
    exact ⟨h.user.fsid, h.group.fsid⟩
  · rintro ⟨hu, hg⟩
    exact ⟨⟨.inl rfl, .inr (.inl rfl), .inr (.inr rfl), hu⟩, ⟨.inl rfl, .inr (.inl rfl), .inr (.inr rfl), hg⟩, rfl, .refl _⟩

/-- **A task without the two capabilities is confined throughout a run exactly when it starts with its own file-system ids
and every `setreuid`, `setregid`, `setfsuid` and `setfsgid` asks for ids it started with.** -/
theorem confined_iff_of_run (start : Cred) (l : List Call) (c : Cred) (h0 : credMachine.init start)
    (h : credMachine.run start l = some c) :
    credMachine.Always (Confined start) start l ↔
      FsOwn start ∧ credMachine.RunOk (fun _ a => Allowed start a) start l c := by
  have hstep : ∀ s a t, Confined start s → credMachine.step s a = some t → (Confined start t ↔ Allowed start a) := by
    intro s a t hs ht
    cases ht
    exact hs.step_iff h0.1 h0.2 a
  by_cases hfs : FsOwn start
  · have hrun := credMachine.always_iff_runOk (fun _ hs => hs) (fun s a t hs ht => (hstep s a t hs ht).2)
      (fun s a t hs ht => (hstep s a t hs ht).1) l start c ((confined_self_iff start).2 hfs) h
    exact hrun.trans (and_iff_right hfs).symm
  · exact iff_of_false (fun hall => hfs ((confined_self_iff start).1 hall.head)) (fun hc => hfs hc.1)

/-! ## An untested call -/

/-- A user's task. -/
def user1000 : Cred := ⟨⟨1000, 1000, 1000, 1000⟩, ⟨1000, 1000, 1000, 1000⟩, [1000], ⟨0, 0, 0, 0⟩⟩

/-- `setreuid(-1, 0)` makes it root. -/
theorem not_confined_setreuid : credMachine.init user1000 ∧
    ∃ c, credMachine.run user1000 [.setreuid true noId 0] = some c ∧ c.user.eid = 0 ∧ ¬Confined user1000 c := by
  refine ⟨⟨by decide, by decide⟩, _, rfl, rfl, fun h => ?_⟩
  have hroot : ¬user1000.user.Own 0 := by decide
  exact hroot h.user.eid

/-- A `setresuid` and a `setreuid` within its own ids. -/
theorem confined_in_two : ∃ c, credMachine.run user1000 [.setresuid true noId 1000 noId, .setreuid true 1000 noId] = some c ∧
    (credMachine.Always (Confined user1000) user1000 [.setresuid true noId 1000 noId, .setreuid true 1000 noId] ↔
      FsOwn user1000 ∧ credMachine.RunOk (fun _ a => Allowed user1000 a) user1000
        [.setresuid true noId 1000 noId, .setreuid true 1000 noId] c) :=
  ⟨_, rfl, confined_iff_of_run user1000 _ _ ⟨by decide, by decide⟩ rfl⟩

end Cred
end Pico
