import Picomimi.Fork
/-!
# ForkFrame — how the child of a fork resumes

The child's frame is built on its own kernel stack, field by field from the parent's, and the saved context points at it;
then a stack argument overwrites the saved kernel stack pointer, where it belongs in the frame alone.  `resumes_iff` says
which calls resume rightly all the same: those without a stack argument, with memory for the kernel stack, of a parent that
runs with interrupts on.
-/
namespace Pico
namespace Fork

open Lib

variable {s s' : State} {args : Args} {a : Allocs} {parent child child' : Task} {k c pid b tf base stackStart x v : Nat}
  {f g : ScField} {mem : Nat → Nat}

/-- The user's registers and flags: all but the vector and the error code. -/
def ScField.IsUser (f : ScField) : Prop := f ≠ .vector ∧ f ≠ .errorCode

/-- **What the child is to find in a register.** -/
def expected (mem : Nat → Nat) (tf stackStart : Nat) : ScField → Nat
  | .rax => 0
  | .userRsp => if stackStart ≠ 0 then stackStart else mem (tf + ScField.userRsp.off)
  | f => mem (tf + f.off)

/-- Where the frame is on a kernel stack. -/
def frameAt (b : Nat) : Nat := b + kernelStackSize - frameSize

/-- **The child resumes as a copy of its parent**: its saved context points at the frame on its own kernel stack and returns
to the trampoline, and the frame holds the parent's registers, but for `rax` and a stack that was asked for. -/
structure Resumes (s s' : State) (tf stackStart c : Nat) : Prop where
  context : ∃ child b, s'.tasks c = some child ∧ child.kernelStack = some b ∧ child.context.rsp = frameAt b ∧
    child.context.rip = .forkReturnToUser ∧
    ∀ f : ScField, f.IsUser → s'.mem (child.context.rsp + f.off) = expected s.mem tf stackStart f

/-- **When it does**: there is memory for the kernel stack, no stack is asked for (or just the one the frame is on), and the
parent's flags have the interrupts on. -/
def FrameOk (s : State) (tf stackStart : Nat) (stack : Option Nat) : Prop :=
  ∃ b, stack = some b ∧ (stackStart = 0 ∨ stackStart = frameAt b) ∧
    (s.mem (tf + ScField.rflags.off)).testBit 9 = true

/-- What `kmalloc` promises of a kernel stack: it lies in memory, and away from the parent's frame. -/
def StackFree (tf b : Nat) : Prop := b + kernelStackSize < word64 ∧ (tf + frameSize ≤ b ∨ b + kernelStackSize ≤ tf)

/-! ## The frame -/

theorem off_injective : Function.Injective ScField.off := by
  intro f g h
  cases f <;> cases g <;> first | rfl | (exact absurd h (by decide))

theorem off_lt (f : ScField) : f.off < frameSize := by
  cases f <;> decide

theorem store_self : store mem base f v (base + f.off) = v := Function.update_self _ _ _

theorem store_of_ne (h : g ≠ f) : store mem base f v (base + g.off) = mem (base + g.off) :=
  Function.update_of_ne (fun he => h (off_injective (Nat.add_left_cancel he))) _ _

/-- Memory away from the frame. -/
def Apart (base x : Nat) : Prop := ∀ f : ScField, x ≠ base + f.off

theorem store_of_apart (h : Apart base x) : store mem base f v x = mem x := Function.update_of_ne (h f) _ _

theorem foldl_store_of_apart (h : Apart base x) : ∀ (l : List ScField) (mem : Nat → Nat),
    l.foldl (fun mem f => store mem base f 0) mem x = mem x
  | [], _ => rfl
  | _ :: l, _ => (foldl_store_of_apart h l _).trans (store_of_apart h)

theorem copyField_base : copyField tf base mem g (base + f.off) = if f = g then mem (tf + f.off) else mem (base + f.off) := by
  by_cases h : f = g
  · rw [if_pos h, h]
    exact store_self
  · rw [if_neg h]
    exact store_of_ne h

section

variable (happ : ∀ f : ScField, Apart base (tf + f.off))
include happ

theorem copyField_tf : copyField tf base mem g (tf + f.off) = mem (tf + f.off) := store_of_apart (happ f)

/-- **Copying fields one after another** copies them all. -/
theorem foldl_copyField : ∀ (l : List ScField) (mem : Nat → Nat) (f : ScField),
    l.foldl (copyField tf base) mem (tf + f.off) = mem (tf + f.off) ∧
      l.foldl (copyField tf base) mem (base + f.off) = if f ∈ l then mem (tf + f.off) else mem (base + f.off)
  | [], mem, f => ⟨rfl, by simp⟩
  | g :: l, mem, f => by
    obtain ⟨h1, h2⟩ := foldl_copyField l (copyField tf base mem g) f
    rw [List.foldl_cons, h1, h2, copyField_tf happ, copyField_base]
    refine ⟨rfl, ?_⟩
    by_cases hl : f ∈ l
    · rw [if_pos hl, if_pos (List.mem_cons_of_mem g hl)]
    · rw [if_neg hl]
      by_cases hg : f = g
      · rw [if_pos hg, if_pos (hg ▸ List.mem_cons_self)]
      · rw [if_neg hg, if_neg (by simp [hg, hl])]

/-- **The frame built from the parent's**: as the child expects it, but for the interrupt flag, which is set. -/
theorem buildFrame_base (hf : f.IsUser) : buildFrame mem (some tf) base stackStart (base + f.off) =
    if f = .rflags then mem (tf + f.off) ||| 0x200 else expected mem tf stackStart f := by
  have htf : ∀ g : ScField, ScField.all.foldl (fun mem f => store mem base f 0) mem (tf + g.off) = mem (tf + g.off) :=
    fun g => foldl_store_of_apart (happ g) _ _
  unfold buildFrame
  rw [store_of_ne hf.2, store_of_ne hf.1]
  simp only
  generalize ScField.all.foldl (fun mem f => store mem base f 0) mem = mem₀ at htf ⊢
  have hcopy := foldl_copyField happ copied (store mem₀ base .rax 0)
  have hrax : ∀ g : ScField, store mem₀ base .rax 0 (tf + g.off) = mem (tf + g.off) := fun g =>
    (store_of_apart (happ g)).trans (htf g)
  unfold copyFrame
  generalize copied.foldl (copyField tf base) (store mem₀ base .rax 0) = mem₁ at hcopy ⊢
  have hsource : ∀ g : ScField, mem₁ (tf + g.off) = mem (tf + g.off) := fun g => (hcopy g).1.trans (hrax g)
  rw [copyField_base, store_of_apart (happ f), store_of_apart (happ f), hsource]
  by_cases hss : f = .ss
  · subst hss
    rfl
  rw [if_neg hss]
  by_cases hrsp : f = .userRsp
  · subst hrsp
    rw [store_self, store_of_apart (happ _), hsource]
    rfl
  rw [store_of_ne hrsp]
  by_cases hfl : f = .rflags
  · subst hfl
    rw [store_self, if_pos rfl, hsource]
  rw [store_of_ne hfl, if_neg hfl, (hcopy f).2]
  by_cases hra : f = .rax
  · subst hra
    rw [if_neg (by decide), store_self]
    rfl
  · have hmem : f ∈ copied := by
      obtain ⟨h1, h2⟩ := hf
      cases f <;> first | contradiction | decide
    rw [if_pos hmem, hrax]
    cases f <;> first | contradiction | rfl

end

/-! ## What the rest of the call leaves alone -/

/-- Nothing but counts and descriptor tables differs. -/
def Counted (s s' : State) : Prop := s' = { s with count := s'.count, fds := s'.fds }

theorem Counted.refl (s : State) : Counted s s := rfl

theorem Counted.trans {s'' : State} (h : Counted s s') (h' : Counted s' s'') : Counted s s'' := by
  unfold Counted at *
  rw [h', h]

theorem counted_inc (s : State) (r : Ref) (x : Nat) : Counted s (s.inc r x) := rfl

theorem counted_foldl_inc : ∀ (l : List Nat) (s : State), Counted s (l.foldl (fun s f => s.inc .file f) s)
  | [], s => .refl s
  | x :: l, s => (counted_inc s .file x).trans (counted_foldl_inc l _)

theorem filesCopy_counted {old new : Option Nat} {r : Option Nat × State} (h : filesCopy s old new = some r) :
    Counted s r.2 := by
  unfold filesCopy at h
  split at h
  · cases h
    exact .refl s
  · cases h
  · cases h
    refine Counted.trans ?_ (counted_foldl_inc _ _)
    rfl

theorem copyRef_counted {k : Ref} {old new : Option Nat} {r : Option Nat × State} (h : copyRef k s old new = some r) :
    Counted s r.2 := by
  unfold copyRef at h
  split at h <;> cases h <;> rfl

theorem shareRef_counted {k : Ref} {old : Option Nat} {r : Option Nat × State} (h : shareRef k s old = some r) :
    Counted s r.2 := by
  unfold shareRef at h
  split at h <;> cases h
  rfl

theorem forkSighand_counted (s : State) (share : Bool) (old new : Option Nat) :
    Counted s (forkSighand s share old new).2 := by
  unfold forkSighand
  split <;> split <;> rfl

/-- **What the second half of the call does to the child**: its kernel stack stays, and so does the saved context but for
`rax` and a stack that was asked for. -/
theorem shareAll_spec {r : Task × State} (h : shareAll s parent child args a = some r) :
    Counted s r.2 ∧ r.1.kernelStack = child.kernelStack ∧ r.1.context.rip = child.context.rip ∧
      r.1.context.rsp = if args.stackStart ≠ 0 then args.stackStart else child.context.rsp := by
  unfold shareAll at h
  simp only [Option.bind_eq_bind, Option.bind_eq_some_iff] at h
  obtain ⟨⟨files, s₁⟩, hfiles, ⟨fs, s₂⟩, hfs, ⟨cred, s₃⟩, hcred, h⟩ := h
  have h1 : Counted s s₁ := by
    unfold forkFiles at hfiles
    split at hfiles
    · exact shareRef_counted hfiles
    · exact filesCopy_counted hfiles
  have h2 : Counted s₁ s₂ := by
    unfold forkFs at hfs
    split at hfs
    · exact shareRef_counted hfs
    · exact copyRef_counted hfs
  have h3 := copyRef_counted hcred
  cases h
  exact ⟨((h1.trans h2).trans (forkSighand_counted ..)).trans h3, rfl, rfl, rfl⟩

theorem forkMm_ok {share : Bool} {old mm : Option Nat} (h : forkMm s share old a = some (.ok mm s')) :
    s' = { s with count := s'.count, sys := s'.sys } := by
  unfold forkMm at h
  split at h
  · obtain ⟨r, hr, he⟩ := Option.map_eq_some_iff.1 h
    have hc := shareRef_counted hr
    cases he
    unfold shareRef at hr
    split at hr <;> cases hr
    rfl
  · split at h
    · cases h
      rfl
    · split at h <;> cases h
      rfl

theorem allocPid_some {s₁ : State} (h : allocPid s = (some pid, s₁)) :
    s₁ = { s with pidBitmap := Function.update s.pidBitmap pid true, lastPid := pid } := by
  unfold allocPid at h
  split at h <;> cases h
  rfl

theorem allocPid_none {s₁ : State} (h : allocPid s = (none, s₁)) : s₁ = s := by
  unfold allocPid at h
  split at h <;> cases h
  rfl

/-- **A call that returns a child** went through all its parts. -/
theorem taskFork_ok (hcur : s.current = some k) (hk : s.tasks k = some parent) (h : taskFork s args a = some (.ok c, s')) :
    ∃ pid mm s₁ s₂ r, a.child = some c ∧ allocPid s = (some pid, s₁) ∧
      forkMm (linkChild s₁ k c pid parent args a).2 (Mm.has args.cloneFlags cloneVm) parent.mm a = some (.ok mm s₂) ∧
      shareAll s₂ parent { (linkChild s₁ k c pid parent args a).1 with mm := mm, activeMm := mm } args a = some r ∧
      s' = publish r.2 k c r.1 args := by
  unfold taskFork at h
  rw [hcur] at h
  simp only [hk] at h
  cases hc : a.child with
  | none =>
    rw [hc] at h
    cases h
  | some c₀ =>
    rw [hc] at h
    simp only at h
    rcases hpid : allocPid s with ⟨_ | pid, s₁⟩
    · rw [hpid] at h
      cases h
    · rw [hpid] at h
      simp only at h
      cases hmm : forkMm (linkChild s₁ k c₀ pid parent args a).2 (Mm.has args.cloneFlags cloneVm) parent.mm a with
      | none =>
        rw [hmm] at h
        cases h
      | some r =>
        rw [hmm] at h
        cases r with
        | fail s₂ => cases h
        | ok mm s₂ =>
          obtain ⟨r, hr, he⟩ := Option.map_eq_some_iff.1 h
          cases he
          exact ⟨pid, mm, s₁, s₂, r, rfl, rfl, hmm, hr, rfl⟩

/-! ## The child -/

/-- The interrupt flag is bit 9. -/
theorem or_intr_eq_self (x : Nat) : x ||| 0x200 = x ↔ x.testBit 9 = true := by
  have hbit : ∀ i, Nat.testBit 0x200 i = decide (9 = i) := fun i => Nat.testBit_two_pow (n := 9) (m := i)
  constructor
  · intro h
    rw [← h, Nat.testBit_or, hbit, decide_eq_true rfl, Bool.or_true]
  · intro h
    apply Nat.eq_of_testBit_eq
    intro i
    rw [Nat.testBit_or, hbit]
    by_cases hi : 9 = i
    · rw [← hi, h, Bool.true_or]
    · rw [decide_eq_false hi, Bool.or_false]

theorem StackFree.apart (h : StackFree tf b) (f : ScField) : Apart (frameAt b) (tf + f.off) := by
  intro g
  have hf := off_lt f
  have hg := off_lt g
  obtain ⟨-, h⟩ := h
  unfold frameAt kernelStackSize frameSize at *
  omega

theorem expected_congr {mem' : Nat → Nat} (h : ∀ f : ScField, mem' (tf + f.off) = mem (tf + f.off)) :
    expected mem' tf stackStart f = expected mem tf stackStart f := by
  cases f <;> simp only [expected, h]

/-- **The child's stack, saved context and frame**, once it is linked. -/
theorem linkChild_spec (s : State) (k c pid : Nat) (args : Args) (hb : a.stack = some b) (hfree : StackFree tf b)
    (htf : parent.trapFrame = some tf) :
    (linkChild s k c pid parent args a).1.kernelStack = some b ∧
      (linkChild s k c pid parent args a).1.context.rip = .forkReturnToUser ∧
      (linkChild s k c pid parent args a).1.context.rsp = frameAt b ∧
      ∀ f : ScField, f.IsUser → (linkChild s k c pid parent args a).2.mem (frameAt b + f.off) =
        if f = .rflags then s.mem (tf + f.off) ||| 0x200 else expected s.mem tf args.stackStart f := by
  have hbase : sub64 (b + kernelStackSize) frameSize = frameAt b :=
    sub64_of_le (by unfold kernelStackSize frameSize; omega) hfree.1
  have hkeep : ∀ f : ScField, (if b ≤ tf + f.off ∧ tf + f.off < b + kernelStackSize then 0 else s.mem (tf + f.off)) =
      s.mem (tf + f.off) := by
    intro f
    have hf := off_lt f
    obtain ⟨-, h⟩ := hfree
    rw [if_neg]
    unfold frameSize at *
    omega
  unfold linkChild
  rw [hb]
  simp only [setupKernelStack, htf]
  refine ⟨trivial, trivial, hbase, fun f hf => ?_⟩
  show buildFrame _ (some tf) (sub64 (b + kernelStackSize) frameSize) args.stackStart (frameAt b + f.off) = _
  rw [hbase, buildFrame_base hfree.apart hf, expected_congr hkeep, hkeep]

/-- Without memory for it the child has no kernel stack. -/
theorem linkChild_none (ha : a.stack = none) : (linkChild s k c pid parent args a).1.kernelStack = none := by
  unfold linkChild
  rw [ha]
  rfl

/-- The parts of a call that made the child `c`: the child as it was linked, and as it is in the end. -/
theorem taskFork_parts (hcur : s.current = some k) (hk : s.tasks k = some parent) (h : taskFork s args a = some (.ok c, s')) :
    ∃ s₁ pid child, s₁.mem = s.mem ∧ s'.tasks c = some child ∧ s'.mem = (linkChild s₁ k c pid parent args a).2.mem ∧
      child.kernelStack = (linkChild s₁ k c pid parent args a).1.kernelStack ∧
      child.context.rip = (linkChild s₁ k c pid parent args a).1.context.rip ∧
      child.context.rsp = if args.stackStart ≠ 0 then args.stackStart
        else (linkChild s₁ k c pid parent args a).1.context.rsp := by
  obtain ⟨pid, mm, s₁, s₂, r, -, hpid, hmm, hshare, rfl⟩ := taskFork_ok hcur hk h
  obtain ⟨hcount, hks, hrip, hrsp⟩ := shareAll_spec hshare
  have hpub : (publish r.2 k c r.1 args).mem = r.2.mem := by
    unfold publish
    split <;> rfl
  have htask : (publish r.2 k c r.1 args).tasks c = some r.1 := by
    unfold publish
    split <;> exact Function.update_self _ _ _
  refine ⟨s₁, pid, r.1, by rw [allocPid_some hpid], htask, ?_, hks, hrip, hrsp⟩
  rw [hpub, hcount, forkMm_ok hmm]

theorem taskFork_child (hcur : s.current = some k) (hk : s.tasks k = some parent) (htf : parent.trapFrame = some tf)
    (hb : a.stack = some b) (hfree : StackFree tf b) (h : taskFork s args a = some (.ok c, s')) :
    ∃ child, s'.tasks c = some child ∧ child.kernelStack = some b ∧ child.context.rip = .forkReturnToUser ∧
      (child.context.rsp = if args.stackStart ≠ 0 then args.stackStart else frameAt b) ∧
      ∀ f : ScField, f.IsUser → s'.mem (frameAt b + f.off) =
        if f = .rflags then s.mem (tf + f.off) ||| 0x200 else expected s.mem tf args.stackStart f := by
  obtain ⟨s₁, pid, child, hs₁, hchild, hmem, hks, hrip, hrsp⟩ := taskFork_parts hcur hk h
  obtain ⟨hks', hrip', hrsp', hframe⟩ := linkChild_spec s₁ k c pid args hb hfree htf
  rw [hks'] at hks
  rw [hrip'] at hrip
  rw [hrsp'] at hrsp
  rw [hs₁] at hframe
  exact ⟨child, hchild, hks, hrip, hrsp, fun f hf => by rw [hmem, hframe f hf]⟩

/-- **Only such calls resume rightly.** -/
theorem Resumes.frameOk (hr : Resumes s s' tf args.stackStart c) (hcur : s.current = some k) (hk : s.tasks k = some parent)
    (htf : parent.trapFrame = some tf) (hfree : ∀ b ∈ a.stack, StackFree tf b)
    (h : taskFork s args a = some (.ok c, s')) : FrameOk s tf args.stackStart a.stack := by
  obtain ⟨child, b, hchild, hkb, hctx, -, hregs⟩ := hr
  cases hb : a.stack with
  | none =>
    obtain ⟨s₁, pid, child', -, hchild', -, hks, -⟩ := taskFork_parts hcur hk h
    rw [hchild] at hchild'
    cases hchild'
    rw [linkChild_none hb, hkb] at hks
    cases hks
  | some b' =>
    obtain ⟨child', hchild', hks, -, hrsp, hframe⟩ := taskFork_child hcur hk htf hb (hfree b' hb) h
    rw [hchild] at hchild'
    cases hchild'
    rw [hkb] at hks
    cases hks
    refine ⟨b, rfl, ?_, ?_⟩
    · rw [hctx] at hrsp
      by_cases h0 : args.stackStart = 0
      · exact .inl h0
      · rw [if_pos h0] at hrsp
        exact .inr hrsp.symm
    · have hfl := hregs .rflags ⟨by decide, by decide⟩
      rw [hctx, hframe .rflags ⟨by decide, by decide⟩, if_pos rfl] at hfl
      exact (or_intr_eq_self _).1 hfl

theorem FrameOk.resumes (hok : FrameOk s tf args.stackStart a.stack) (hcur : s.current = some k)
    (hk : s.tasks k = some parent) (htf : parent.trapFrame = some tf) (hfree : ∀ b ∈ a.stack, StackFree tf b)
    (h : taskFork s args a = some (.ok c, s')) : Resumes s s' tf args.stackStart c := by
  obtain ⟨b, hb, hstack, hfl⟩ := hok
  obtain ⟨child, hchild, hks, hrip, hrsp, hframe⟩ := taskFork_child hcur hk htf hb (hfree b hb) h
  have hctx : child.context.rsp = frameAt b := by
    rw [hrsp]
    by_cases h0 : args.stackStart ≠ 0
    · rw [if_pos h0]
      exact hstack.resolve_left h0
    · rw [if_neg h0]
  refine ⟨child, b, hchild, hks, hctx, hrip, fun f hf => ?_⟩
  rw [hctx, hframe f hf]
  by_cases hff : f = .rflags
  · rw [if_pos hff, hff]
    exact (or_intr_eq_self _).2 hfl
  · rw [if_neg hff]

/-- **Which calls resume rightly.** -/
theorem resumes_iff (hcur : s.current = some k) (hk : s.tasks k = some parent) (htf : parent.trapFrame = some tf)
    (hfree : ∀ b ∈ a.stack, StackFree tf b) (h : taskFork s args a = some (.ok c, s')) :
    Resumes s s' tf args.stackStart c ↔ FrameOk s tf args.stackStart a.stack :=
  ⟨fun hr => hr.frameOk hcur hk htf hfree h, fun hok => hok.resumes hcur hk htf hfree h⟩

/-! ## The trampoline -/

def pops (mem : Nat → Nat) : Nat → List ScField → List (ScField × Nat)
  | _, [] => []
  | rsp, f :: l => (f, mem rsp) :: pops mem (rsp + 8) l

/-- The user's registers, in the order of `fork_return_to_user`. -/
def userFields : List ScField :=
  [.rax, .rbx, .rcx, .rdx, .rsi, .rdi, .rbp, .r8, .r9, .r10, .r11, .r12, .r13, .r14, .r15] ++
    [.rip, .cs, .rflags, .userRsp, .ss]

/-- `fork_return_to_user`: it pops the registers, skips the vector and the error code, and `iretq` pops the rest. -/
def forkReturnToUser (mem : Nat → Nat) (rsp : Nat) : List (ScField × Nat) :=
  pops mem rsp (userFields.take 15) ++ pops mem (rsp + 8 * 15 + 16) (userFields.drop 15)

/-- **A child that resumes rightly reaches user mode with the registers of its parent.** -/
theorem Resumes.registers (h : Resumes s s' tf stackStart c) : ∃ child, s'.tasks c = some child ∧
    child.context.rip = .forkReturnToUser ∧
    forkReturnToUser s'.mem child.context.rsp = userFields.map fun f => (f, expected s.mem tf stackStart f) := by
  obtain ⟨child, b, hchild, -, -, hrip, hregs⟩ := h
  have hpops : forkReturnToUser s'.mem child.context.rsp =
      userFields.map fun f => (f, s'.mem (child.context.rsp + f.off)) := rfl
  refine ⟨child, hchild, hrip, hpops.trans (List.map_congr_left fun f hf => ?_)⟩
  have huser : f.IsUser := by
    constructor <;> rintro rfl <;> exact absurd hf (by decide)
  rw [hregs f huser]

/-! ## A process -/

/-- A process in a system call: its frame is at the top of its kernel stack. -/
def forking : State where
  current := some 7
  tasks := Function.update (fun _ => none) 7 (some
    { pid := 2, ppid := 1, tgid := 2, groupLeader := some 7, parent := some 1, children := []
      stack := 0x20000, kernelStack := some 0x10000, context := ⟨.addr 0, 0, 0⟩, trapFrame := some (frameAt 0x10000)
      mm := some 0, activeMm := some 0, files := some 1, fs := some 1, sighand := none, cred := some 1
      tls := 0, setChildTid := 0, clearChildTid := 0 })
  pidBitmap pid := decide (pid < 3)
  lastPid := 2
  table i := if i = 2 then some 7 else none
  sys := AddrSpace.oneProc 20
  count _ _ := 1
  fds _ := [some 5, none]
  sched := Sched.bootState
  mem a := a
  user _ := 0

/-- Memory for everything. -/
def plenty : Allocs where
  child := some 9
  stack := some 0x40000
  mm := some 1
  nodes _ := some 1
  files := some 2
  fs := some 2
  sighand := some 2
  cred := some 2

theorem stackFree_plenty : ∀ b ∈ plenty.stack, StackFree (frameAt 0x10000) b := by
  intro b hb
  cases hb
  exact ⟨by decide, .inl (by decide)⟩

theorem taskFork_forking (args : Args) (h : ((taskFork forking args plenty).map fun r => r.1.toOption) = some (some 9)) :
    ∃ s', taskFork forking args plenty = some (.ok 9, s') := by
  obtain ⟨⟨r, s'⟩, hr, ho⟩ := Option.map_eq_some_iff.1 h
  cases r with
  | error e => cases ho
  | ok c =>
    cases ho
    exact ⟨s', hr⟩

/-- **A fork without a stack argument resumes rightly.** -/
theorem resumes_iff_forking :
    ∃ s', taskFork forking ⟨0, 0, 0, 0, 0⟩ plenty = some (.ok 9, s') ∧ Resumes forking s' (frameAt 0x10000) 0 9 := by
  obtain ⟨s', h⟩ := taskFork_forking ⟨0, 0, 0, 0, 0⟩ (by decide +kernel)
  exact ⟨s', h, (resumes_iff rfl rfl rfl stackFree_plenty h).2 ⟨0x40000, rfl, .inl rfl, by decide +kernel⟩⟩

/-- **A thread with a stack of its own does not**: the scheduler would restore the user's stack pointer for the kernel's. -/
theorem not_resumes_thread :
    ∃ s', taskFork forking ⟨cloneVm ||| cloneFiles ||| cloneFs, 0x700000, 0, 0, 0⟩ plenty = some (.ok 9, s') ∧
      ((s'.tasks 9).map fun child => child.context.rsp) = some 0x700000 ∧
      ¬Resumes forking s' (frameAt 0x10000) 0x700000 9 := by
  obtain ⟨s', h⟩ := taskFork_forking ⟨cloneVm ||| cloneFiles ||| cloneFs, 0x700000, 0, 0, 0⟩ (by decide +kernel)
  obtain ⟨child, hchild, -, -, hrsp, -⟩ := taskFork_child rfl rfl rfl rfl (stackFree_plenty _ rfl) h
  refine ⟨s', h, by rw [hchild, Option.map_some, hrsp, if_pos (by decide)], fun hr => ?_⟩
  obtain ⟨b, hb, hstack, -⟩ := Resumes.frameOk hr rfl rfl rfl stackFree_plenty h
  cases hb
  exact absurd hstack (by decide)

end Fork
end Pico
