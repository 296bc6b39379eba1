import Picomimi.ExecImage
import Picomimi.ExecStack
/-!
# ExecStackImage — what the program reads from its stack

From `sp` to the top the stack is one list of bytes, below `sp` it is zero (`Holds`).  To push is to put bytes before the list,
so the list at the end is read off the order of the pushes, and reading it as the ABI says gives the strings and the vector
back (`stack_decodes`).
-/
namespace Pico
namespace Exec

open Lib Paging AddrSpace

/-! ## Writes through the page tables -/

section Writes

variable {s₀ s s' : State} {r a v x : Nat}

/-- The page of a byte that is mapped, and where in it the byte is. -/
theorem virt_split (h : Loading s₀ s r) (hb : 0 < s₀.bitmapBase) (hv : v < userTop) (hp : vmmUserVirtToPhys s v ≠ 0) :
    vmmUserVirtToPhys s (alignDown v pageSize) ≠ 0 ∧
      vmmUserVirtToPhys s v = vmmUserVirtToPhys s (alignDown v pageSize) + v % pageSize := by
  have hle : alignDown v pageSize ≤ v := alignDown_le _ _
  have hlt : alignDown v pageSize < userTop := Nat.lt_of_le_of_lt hle hv
  have hpage : alignDown v pageSize / pageSize = v / pageSize := by
    unfold alignDown pageSize
    omega
  have h1 := h.lookup (pml4Idx_of_user hv)
  have h2 := h.lookup (pml4Idx_of_user hlt)
  rw [mod_of_user hv] at h1
  rw [mod_of_user hlt, leaf_congr s r hv hlt hpage, Nat.mod_eq_zero_of_dvd (dvd_alignDown _ _), Nat.add_zero] at h2
  by_cases hpr : Present (leaf s r v)
  · rw [if_pos hpr] at h1 h2
    rw [h1, h2]
    obtain ⟨i, -, -, hi⟩ := (h.data v hv hpr).free
    exact ⟨by omega, rfl⟩
  · rw [if_neg hpr] at h1
    exact absurd h1 hp

theorem userByte_isSome : (userByte s x).isSome = true ↔ vmmUserVirtToPhys s x ≠ 0 := by
  unfold userByte
  split
  · rename_i h
    exact ⟨fun hc => Bool.noConfusion hc, fun hc => absurd h hc⟩
  · rename_i h
    exact ⟨fun _ => h, fun _ => rfl⟩

theorem add64_user (h : a + 1 ≤ userTop) : add64 a 1 = a + 1 := by
  apply add64_of_lt
  unfold userTop word64 at *
  omega

/-- **One byte.** -/
theorem userByte_writeByte {b : UInt8} (h : Loading s₀ s r) (hb : 0 < s₀.bitmapBase) (hv : v < userTop)
    (hp : vmmUserVirtToPhys s v ≠ 0) : Loading s₀ (copyTo s (vmmUserVirtToPhys s v) [b]) r ∧
      ∀ x, x < userTop → userByte (copyTo s (vmmUserVirtToPhys s v) [b]) x =
        if x = v then some b.toNat else userByte s x := by
  obtain ⟨hphys, hsum⟩ := virt_split h hb hv hp
  have hlt : alignDown v pageSize < userTop := Nat.lt_of_le_of_lt (alignDown_le _ _) hv
  have hoff : v % pageSize + [b].length ≤ pageSize := mod_lt_pageSize v
  have hv' : alignDown v pageSize + v % pageSize = v := alignDown_add_mod v pageSize
  rw [hsum]
  refine ⟨(h.copyTo [b] (pml4Idx_of_user hlt) (dvd_alignDown _ _) hphys hoff).1, fun x hx => ?_⟩
  rw [userByte_copyTo h hb hlt (dvd_alignDown _ _) hphys hoff hx, hv']
  by_cases hxv : x = v
  · subst hxv
    rw [if_pos rfl, if_pos ⟨Nat.le_refl _, Nat.lt_succ_self _⟩, Nat.sub_self]
    rfl
  · rw [if_neg hxv, if_neg]
    rintro ⟨h1, h2⟩
    rw [List.length_singleton] at h2
    omega

/-- **What a write has done.** -/
theorem writeUser_some (hb : 0 < s₀.bitmapBase) : ∀ {l : List UInt8} {s : State} {a : Nat}, Loading s₀ s r →
    a + l.length ≤ userTop → writeUser s a l = some s' → Loading s₀ s' r ∧ BytesAt (userByte s') a l ∧
      ∀ x, x < userTop → ¬(a ≤ x ∧ x < a + l.length) → userByte s' x = userByte s x
  | [], s, a, h, _, hw => by
    cases hw
    exact ⟨h, BytesAt.nil, fun _ _ _ => rfl⟩
  | b :: l, s, a, h, ha, hw => by
    rw [List.length_cons] at ha ⊢
    unfold writeUser at hw
    split at hw
    · cases hw
    rename_i hp
    have hv : a < userTop := by omega
    obtain ⟨h1, hbyte⟩ := userByte_writeByte (b := b) h hb hv hp
    rw [add64_user (by omega)] at hw
    obtain ⟨h2, hl, hf⟩ := writeUser_some hb h1 (by omega) hw
    refine ⟨h2, bytesAt_cons.2 ⟨?_, hl⟩, fun x hx hout => ?_⟩
    · rw [hf a hv (by omega), hbyte a hv, if_pos rfl]
    · rw [hf x hx (by omega), hbyte x hx, if_neg (by omega)]

/-- **A write to mapped bytes has a result.** -/
theorem writeUser_isSome (hb : 0 < s₀.bitmapBase) : ∀ {l : List UInt8} {s : State} {a : Nat}, Loading s₀ s r →
    a + l.length ≤ userTop → (∀ x, a ≤ x → x < a + l.length → (userByte s x).isSome = true) →
    ∃ s', writeUser s a l = some s'
  | [], s, a, _, _, _ => ⟨s, rfl⟩
  | b :: l, s, a, h, ha, hm => by
    rw [List.length_cons] at ha hm
    have hv : a < userTop := by omega
    have hp := userByte_isSome.1 (hm a (Nat.le_refl _) (by omega))
    obtain ⟨h1, hbyte⟩ := userByte_writeByte (b := b) h hb hv hp
    have hm1 : ∀ x, a + 1 ≤ x → x < a + 1 + l.length →
        (userByte (copyTo s (vmmUserVirtToPhys s a) [b]) x).isSome = true := by
      intro x h1 h2
      rw [hbyte x (by omega), if_neg (by omega)]
      exact hm x (by omega) (by omega)
    obtain ⟨s', hs'⟩ := writeUser_isSome hb h1 (by omega) hm1
    refine ⟨s', ?_⟩
    unfold writeUser
    split
    · rename_i hc
      exact absurd hc hp
    · rw [add64_user (by omega)]
      exact hs'

end Writes

/-! ## The stack as a list of bytes -/

/-- **From `sp` to the top the stack is `img`**, and zero below. -/
structure Holds (s₀ : State) (r : Nat) (st : Stack) (img : List UInt8) : Prop where
  load : Loading s₀ st.pt r
  top : st.sp + img.length = userStackTop
  base : stackBase ≤ st.sp
  zero : ∀ x, stackBase ≤ x → x < st.sp → userByte st.pt x = some 0
  cells : BytesAt (userByte st.pt) st.sp img

section Holds

variable {s₀ : State} {r n : Nat} {st st' : Stack} {img : List UInt8}

theorem Holds.sp_lt (h : Holds s₀ r st img) : st.sp < word64 := by
  have := h.top
  unfold userStackTop at this
  unfold word64
  omega

theorem Stack.down_sp (h : Holds s₀ r st img) (hn : stackBase + n ≤ st.sp) : (st.down n).sp = st.sp - n :=
  sub64_of_le (Nat.le_trans (Nat.le_add_left _ _) hn) h.sp_lt

/-- `sp` goes down over zeros. -/
theorem Holds.down (h : Holds s₀ r st img) (hn : stackBase + n ≤ st.sp) :
    Holds s₀ r (st.down n) (List.replicate n 0 ++ img) := by
  have hsp := Stack.down_sp h hn
  have htop := h.top
  refine ⟨h.load, ?_, ?_, ?_, ?_⟩
  · rw [hsp, List.length_append, List.length_replicate]
    omega
  · rw [hsp]
    omega
  · intro x h1 h2
    rw [hsp] at h2
    exact h.zero x h1 (by omega)
  · rw [hsp]
    refine bytesAt_append.2 ⟨fun i hi => ?_, ?_⟩
    · rw [List.length_replicate] at hi
      rw [List.getElem?_replicate_of_lt hi]
      exact h.zero _ (by omega) (by omega)
    · have hsum : st.sp - n + n = st.sp := by omega
      rw [List.length_replicate, hsum]
      exact h.cells

theorem Holds.align (h : Holds s₀ r st img) (hn : stackBase + st.sp % 16 ≤ st.sp) :
    Holds s₀ r st.align (List.replicate (st.sp % 16) 0 ++ img) := by
  have hd : st.align = st.down (st.sp % 16) := by
    have hsum := alignDown_add_mod st.sp 16
    have hsp := Stack.down_sp h hn
    refine congrArg (Stack.mk st.pt) (Eq.trans ?_ hsp.symm)
    omega
  rw [hd]
  exact h.down hn

/-- **Bytes are stored over zeros.** -/
theorem Holds.store (data : List UInt8) {k : Nat} (hb : 0 < s₀.bitmapBase)
    (h : Holds s₀ r st (List.replicate (data.length + k) 0 ++ img)) :
    ∃ st', st.store data = some st' ∧ st'.sp = st.sp ∧ Holds s₀ r st' (data ++ (List.replicate k 0 ++ img)) := by
  have htop := h.top
  have hcells := h.cells
  rw [List.length_append, List.length_replicate] at htop
  rw [List.replicate_add, List.append_assoc, bytesAt_append, List.length_replicate] at hcells
  have hle : st.sp + data.length ≤ userTop := by
    unfold userStackTop at htop
    unfold userTop
    omega
  obtain ⟨pt, hpt⟩ := writeUser_isSome hb (l := data) h.load hle fun x h1 h2 => by
    have hz := hcells.1 (x - st.sp) (by rw [List.length_replicate]; omega)
    have hx : st.sp + (x - st.sp) = x := by omega
    rw [hx, List.getElem?_replicate_of_lt (by omega)] at hz
    rw [hz]
    rfl
  obtain ⟨h1, h2, h3⟩ := writeUser_some hb h.load hle hpt
  refine ⟨⟨pt, st.sp⟩, ?_, rfl, h1, ?_, h.base, ?_, bytesAt_append.2 ⟨h2, ?_⟩⟩
  · rw [Stack.store, hpt]
    rfl
  · rw [List.length_append, List.length_append, List.length_replicate]
    show st.sp + _ = _
    omega
  · intro x hx1 hx2
    have hx2 : x < st.sp := hx2
    rw [h3 x (by omega) (by omega)]
    exact h.zero x hx1 hx2
  · intro i hi
    have hlen : i < k + img.length := by
      rw [List.length_append, List.length_replicate] at hi
      exact hi
    have hx : st.sp + data.length + i < userTop := by
      unfold userStackTop at htop
      unfold userTop
      omega
    exact (h3 _ hx (by omega)).trans (hcells.2 i hi)

/-- **A push puts its bytes before the list.** -/
theorem Holds.push (data : List UInt8) (hb : 0 < s₀.bitmapBase) (h : Holds s₀ r st img)
    (hn : stackBase + data.length ≤ st.sp) : ∃ st', (st.down data.length).store data = some st' ∧
      st'.sp = st.sp - data.length ∧ Holds s₀ r st' (data ++ img) := by
  obtain ⟨st', h1, h2, h3⟩ := Holds.store data (k := 0) hb (h.down hn)
  exact ⟨st', h1, h2.trans (Stack.down_sp h hn), h3⟩

/-- `PUSH64`. -/
theorem Holds.push64 (hb : 0 < s₀.bitmapBase) (h : Holds s₀ r st img) (v : Nat) (hn : stackBase + 8 ≤ st.sp) :
    ∃ st', push64 st v = some st' ∧ st'.sp = st.sp - 8 ∧ Holds s₀ r st' (leBytes 8 v ++ img) := by
  have h8 := leBytes_length 8 v
  have hpush := h.push (leBytes 8 v) hb (by rw [h8]; exact hn)
  rw [h8] at hpush
  exact hpush

/-- The bytes of words, the first lowest. -/
def wordCells (ws : List Nat) : List UInt8 := ws.flatMap (leBytes 8)

theorem wordCells_append (ws ws' : List Nat) : wordCells (ws ++ ws') = wordCells ws ++ wordCells ws' := List.flatMap_append

theorem wordCells_length : ∀ (ws : List Nat), (wordCells ws).length = 8 * ws.length
  | [] => rfl
  | w :: ws => by
    have ih := wordCells_length ws
    rw [wordCells, List.flatMap_cons, List.length_append, leBytes_length, List.length_cons]
    unfold wordCells at ih
    omega

/-- **Words pushed one after another** are in memory in the opposite order. -/
theorem Holds.pushWords (hb : 0 < s₀.bitmapBase) : ∀ (ws : List Nat) {st : Stack} {img : List UInt8}, Holds s₀ r st img →
    stackBase + 8 * ws.length ≤ st.sp → ∃ st', pushWords st ws = some st' ∧ st'.sp = st.sp - 8 * ws.length ∧
      Holds s₀ r st' (wordCells ws.reverse ++ img)
  | [], st, _, h, _ => ⟨st, rfl, rfl, h⟩
  | w :: ws, st, img, h, hn => by
    rw [List.length_cons] at hn ⊢
    obtain ⟨st₁, h1, hsp1, hh1⟩ := h.push64 hb w (by omega)
    obtain ⟨st₂, h2, hsp2, hh2⟩ := Holds.pushWords hb ws hh1 (by omega)
    refine ⟨st₂, ?_, ?_, ?_⟩
    · unfold Exec.pushWords
      rw [h1]
      exact h2
    · rw [hsp2, hsp1]
      omega
    · rw [List.reverse_cons, wordCells_append, List.append_assoc]
      have hw : wordCells [w] = leBytes 8 w := List.append_nil _
      rw [hw]
      exact hh2

/-! ## Strings -/

def strCells (l : List CStr) : List UInt8 := l.flatMap CStr.cells

/-- Where the strings are that start at `a`, one after another. -/
def ptrsFrom (a : Nat) : List CStr → List Nat
  | [] => []
  | str :: l => a :: ptrsFrom (a + str.cells.length) l

/-- **Strings pushed, the last one first**, follow one another in memory. -/
theorem Holds.pushStrs (hb : 0 < s₀.bitmapBase) : ∀ (l : List CStr) {st : Stack} {img : List UInt8}, Holds s₀ r st img →
    stackBase + (strCells l).length ≤ st.sp → ∃ st', pushStrs st l = some (ptrsFrom st'.sp l, st') ∧
      st'.sp = st.sp - (strCells l).length ∧ Holds s₀ r st' (strCells l ++ img)
  | [], st, _, h, _ => ⟨st, rfl, rfl, h⟩
  | str :: l, st, img, h, hn => by
    have hlen : (strCells (str :: l)).length = str.cells.length + (strCells l).length := List.length_append
    rw [hlen] at hn ⊢
    obtain ⟨st₁, h1, hsp1, hh1⟩ := Holds.pushStrs hb l h (by omega)
    obtain ⟨st₂, h2, hsp2, hh2⟩ := hh1.push str.cells hb (by omega)
    have hptr : st₂.sp + str.cells.length = st₁.sp := by omega
    refine ⟨st₂, ?_, by omega, ?_⟩
    · unfold Exec.pushStrs
      rw [h1]
      show (pushStr st₁ str).bind _ = _
      have h2 : pushStr st₁ str = some st₂ := h2
      rw [h2, ptrsFrom, hptr]
      rfl
    · have hcells : strCells (str :: l) = str.cells ++ strCells l := rfl
      rw [hcells, List.append_assoc]
      exact hh2

theorem Stack.align_of (h : st.sp % 16 = 0) : st.align = st := by
  have hsum := alignDown_add_mod st.sp 16
  rw [h] at hsum
  exact congrArg (Stack.mk st.pt) hsum

/-- Bytes that start a block of 16. -/
theorem Holds.place (data : List UInt8) {k : Nat} (hb : 0 < s₀.bitmapBase) (h : Holds s₀ r st img)
    (hk : data.length + k = 16) (hn : stackBase + 16 ≤ st.sp) (h16 : st.sp % 16 = 0) :
    ∃ st', (st.down 16).align.store data = some st' ∧ st'.sp = st.sp - 16 ∧
      Holds s₀ r st' (data ++ (List.replicate k 0 ++ img)) := by
  have hsp := Stack.down_sp h hn
  have h1 := h.down hn
  have halign : (st.down 16).align = st.down 16 := Stack.align_of (by rw [hsp]; omega)
  rw [halign]
  rw [← hk] at h1
  obtain ⟨st', h2, h3, h4⟩ := Holds.store data hb h1
  rw [hk] at h2 h3
  exact ⟨st', h2, h3.trans hsp, h4⟩

/-- The strings are followed by a pad, so that the words end at a multiple of 16. -/
theorem Holds.pad (h : Holds s₀ r st img) (words : Nat) (hn : stackBase + (st.sp % 16 + 8) ≤ st.sp) :
    ∃ pad st', st' = (if words % 2 ≠ 0 then st.align.down 8 else st.align) ∧
      st'.sp = st.sp - (st.sp % 16 + words % 2 * 8) ∧ Holds s₀ r st' (pad ++ img) := by
  have halign : st.align.sp = st.sp - st.sp % 16 := by
    have hsum := alignDown_add_mod st.sp 16
    show alignDown st.sp 16 = _
    omega
  have h1 := h.align (by omega)
  rcases Nat.mod_two_eq_zero_or_one words with hw | hw
  · refine ⟨_, st.align, ?_, by rw [halign, hw, Nat.zero_mul, Nat.add_zero], h1⟩
    rw [hw, if_neg (not_not.2 rfl)]
  · have hn1 : stackBase + 8 ≤ st.align.sp := by omega
    refine ⟨List.replicate 8 0 ++ List.replicate (st.sp % 16) 0, st.align.down 8, ?_, ?_, ?_⟩
    · rw [hw, if_pos Nat.one_ne_zero]
    · rw [Stack.down_sp h1 hn1, halign, hw]
      omega
    · rw [List.append_assoc]
      exact h1.down hn1

end Holds

/-! ## The whole stack -/

/-- What the strings take, with the pad that follows them. -/
def stringBytes (argv envp : List CStr) : Nat :=
  let n := (strCells argv).length + (strCells envp).length
  n + (16 - n % 16) % 16

/-- **What the stack takes**, to the byte. -/
def stackBytes (argv envp : List CStr) : Nat :=
  let words := totalWords argv.length envp.length
  32 + stringBytes argv envp + words % 2 * 8 + 8 * words

theorem totalWords_eq (argc envc : Nat) : totalWords argc envc = 33 + argc + envc := by
  unfold totalWords nAuxv
  omega

theorem stackBytes_eq (argv envp : List CStr) : stackBytes argv envp =
    32 + ((strCells argv).length + (strCells envp).length + (16 - ((strCells argv).length + (strCells envp).length) % 16) % 16) +
      (33 + argv.length + envp.length) % 2 * 8 + 8 * (33 + argv.length + envp.length) := by
  rw [← totalWords_eq]
  rfl

/-- The words from `sp` on. -/
def stackWords (argvPtrs envpPtrs : List Nat) (aux : List (Nat × Nat)) : List Nat :=
  argvPtrs.length :: (argvPtrs ++ [0]) ++ ((envpPtrs ++ [0]) ++ (aux.reverse.flatMap (fun e => [e.1, e.2]) ++ [0, 0]))

def randomCells : List UInt8 := leBytes 8 randomWord ++ leBytes 8 randomWord

theorem ptrsFrom_length : ∀ (l : List CStr) (a : Nat), (ptrsFrom a l).length = l.length
  | [], _ => rfl
  | str :: l, a => congrArg (· + 1) (ptrsFrom_length l (a + str.cells.length))

theorem flatMap_pair_length (l : List (Nat × Nat)) (f g : Nat × Nat → Nat) :
    (l.flatMap fun e => [f e, g e]).length = 2 * l.length := by
  induction l with
  | nil => rfl
  | cons e l ih =>
    rw [List.flatMap_cons, List.length_append, ih, List.length_cons, List.length_cons, List.length_cons, List.length_nil]
    omega

/-- Where the strings of `argv` are; those of `envp` follow. -/
def strsAt (argv envp : List CStr) : Nat := userStackTop - 32 - ((strCells argv).length + (strCells envp).length)

def envsAt (argv envp : List CStr) : Nat := strsAt argv envp + (strCells argv).length

section Fill

variable {s₀ pt : State} {r : Nat} {a : StackAnswers} {argv envp : List CStr} {ehdr : StackEhdr} {phdrs : List Elf64Phdr}
  {loadBias interpBase : Nat}

theorem stackWords_length (argvPtrs envpPtrs : List Nat) (aux : List (Nat × Nat)) :
    (stackWords argvPtrs envpPtrs aux).length = argvPtrs.length + envpPtrs.length + 2 * aux.length + 5 := by
  have haux := flatMap_pair_length aux.reverse Prod.fst Prod.snd
  rw [List.length_reverse] at haux
  simp only [stackWords, List.length_append, List.length_cons, List.length_nil, haux]
  omega

/-- **The words**, from `argc` up to the end of the auxiliary vector. -/
theorem pushVectors_spec {st : Stack} {img : List UInt8} (hb : 0 < s₀.bitmapBase) (h : Holds s₀ r st img)
    (argvPtrs envpPtrs : List Nat) (aux : List (Nat × Nat))
    (hn : stackBase + 8 * (stackWords argvPtrs envpPtrs aux).length ≤ st.sp) :
    ∃ st', pushVectors st argvPtrs.length argvPtrs envpPtrs aux = some st' ∧
      st'.sp = st.sp - 8 * (stackWords argvPtrs envpPtrs aux).length ∧
      Holds s₀ r st' (wordCells (stackWords argvPtrs envpPtrs aux) ++ img) := by
  rw [stackWords_length] at hn ⊢
  have hnull : ([0, 0] : List Nat).length = 2 := rfl
  have haux := flatMap_pair_length aux Prod.snd Prod.fst
  have henvp : (0 :: envpPtrs.reverse).length = envpPtrs.length + 1 := by
    rw [List.length_cons, List.length_reverse]
  have hargv : (0 :: argvPtrs.reverse).length = argvPtrs.length + 1 := by
    rw [List.length_cons, List.length_reverse]
  obtain ⟨st₁, h1, hsp1, hh1⟩ := h.pushWords hb [0, 0] (by omega)
  obtain ⟨st₂, h2, hsp2, hh2⟩ := hh1.pushWords hb (aux.flatMap fun e => [e.2, e.1]) (by omega)
  obtain ⟨st₃, h3, hsp3, hh3⟩ := hh2.pushWords hb (0 :: envpPtrs.reverse) (by omega)
  obtain ⟨st₄, h4, hsp4, hh4⟩ := hh3.pushWords hb (0 :: argvPtrs.reverse) (by omega)
  obtain ⟨st₅, h5, hsp5, hh5⟩ := hh4.push64 hb argvPtrs.length (by omega)
  refine ⟨st₅, ?_, by omega, ?_⟩
  · unfold pushVectors
    rw [h1]
    show (pushWords st₁ _).bind _ = _
    rw [h2]
    show (pushWords st₂ _).bind _ = _
    rw [h3]
    show (pushWords st₃ _).bind _ = _
    rw [h4]
    exact h5
  · have hrev : (aux.flatMap fun e => [e.2, e.1]).reverse = aux.reverse.flatMap fun e => [e.1, e.2] :=
      List.reverse_flatMap
    rw [hrev, List.reverse_cons, List.reverse_reverse, List.reverse_cons, List.reverse_reverse] at hh5
    have hw : leBytes 8 argvPtrs.length = wordCells [argvPtrs.length] := (List.append_nil _).symm
    rw [hw, ← List.append_assoc, ← List.append_assoc, ← List.append_assoc, ← List.append_assoc, ← wordCells_append,
      ← wordCells_append, ← wordCells_append, ← wordCells_append] at hh5
    have hws : stackWords argvPtrs envpPtrs aux = [argvPtrs.length] ++ (argvPtrs ++ [0]) ++ (envpPtrs ++ [0]) ++
        (aux.reverse.flatMap fun e => [e.1, e.2]) ++ [0, 0].reverse := by
      simp only [stackWords, List.append_assoc, List.cons_append, List.nil_append, List.reverse_cons, List.reverse_nil]
    rw [hws]
    exact hh5

/-- The auxiliary vector, in the order of `auxEntries`. -/
def stackAux (argv envp : List CStr) (ehdr : StackEhdr) (phdrs : List Elf64Phdr) (loadBias interpBase : Nat) : List (Nat × Nat) :=
  auxEntries ehdr phdrs loadBias interpBase (userStackTop - 16) (userStackTop - 32) (strsAt argv envp)

/-- The pad and the words fit, and end where `stackBytes` says. -/
theorem fill_fits {n w : Nat} (hw : 0 < w)
    (h : 32 + (n + (16 - n % 16) % 16) + w % 2 * 8 + 8 * w ≤ userStackSize) :
    stackBase + (n + 32) ≤ userStackTop ∧
      stackBase + ((userStackTop - 32 - n) % 16 + 8) ≤ userStackTop - 32 - n ∧
      stackBase + 8 * w ≤ userStackTop - 32 - n - ((userStackTop - 32 - n) % 16 + w % 2 * 8) ∧
      userStackTop - 32 - n - ((userStackTop - 32 - n) % 16 + w % 2 * 8) - 8 * w =
        userStackTop - (32 + (n + (16 - n % 16) % 16) + w % 2 * 8 + 8 * w) := by
  unfold stackBase
  unfold userStackSize userStackTop at *
  have hpad : (140737488347136 - 32 - n) % 16 = (16 - n % 16) % 16 := by omega
  rw [hpad]
  generalize (16 - n % 16) % 16 = pad at h ⊢
  generalize w % 2 * 8 = odd at h ⊢
  refine ⟨?_, ?_, ?_, ?_⟩ <;> omega

/-- Where the strings end up. -/
theorem strs_at (argv envp : List CStr) (h : (strCells argv).length + (strCells envp).length + 32 ≤ userStackTop) :
    userStackTop - 32 - (strCells envp).length = envsAt argv envp ∧
      envsAt argv envp - (strCells argv).length = strsAt argv envp := by
  unfold envsAt strsAt
  omega

/-- **What `fillStack` leaves** from `sp` to the top. -/
theorem fillStack_spec (ehdr : StackEhdr) (phdrs : List Elf64Phdr) (loadBias interpBase : Nat)
    (hb : 0 < s₀.bitmapBase) (h : Holds s₀ r ⟨pt, userStackTop⟩ []) (hargc : argv ≠ [])
    (hfits : stackBytes argv envp ≤ userStackSize) (he : a.envpPtrs = true) (ha : a.argvPtrs = true) :
    ∃ st pad, fillStack pt a argv envp ehdr phdrs loadBias interpBase = some (st.sp, st.pt) ∧
      st.sp = userStackTop - stackBytes argv envp ∧ Holds s₀ r st
        (wordCells (stackWords (ptrsFrom (strsAt argv envp) argv) (ptrsFrom (envsAt argv envp) envp)
            (stackAux argv envp ehdr phdrs loadBias interpBase)) ++
          (pad ++ (strCells argv ++ (strCells envp ++ (randomCells ++ (platformCells ++ List.replicate 9 0)))))) := by
  have hwords : 0 < totalWords argv.length envp.length := by
    rw [totalWords_eq]
    omega
  obtain ⟨hn1, hn2, hn3, hn4⟩ := fill_fits hwords
    (show 32 + ((strCells argv).length + (strCells envp).length +
      (16 - ((strCells argv).length + (strCells envp).length) % 16) % 16) + totalWords argv.length envp.length % 2 * 8 +
      8 * totalWords argv.length envp.length ≤ userStackSize from hfits)
  have hbase : stackBase = 140737486249984 := rfl
  have htop : userStackTop = 140737488347136 := rfl
  -- the platform string and the random bytes
  obtain ⟨st₁, h1, hp1, hh1⟩ := h.place platformCells (k := 9) hb rfl (show stackBase + 16 ≤ userStackTop by decide)
    (show userStackTop % 16 = 0 by decide)
  have hp1 : st₁.sp = userStackTop - 16 := hp1
  obtain ⟨st₂, h2, hsp2, hh2⟩ := hh1.place randomCells (k := 0) hb rfl (hp1 ▸ by decide) (hp1 ▸ by decide)
  have hp2 : st₂.sp = userStackTop - 32 := hsp2.trans (by rw [hp1]; rfl)
  -- the strings and the pad
  obtain ⟨henvs, hstrs⟩ := strs_at argv envp (Nat.le_trans (Nat.le_add_left _ _) hn1)
  obtain ⟨st₃, h3, hsp3, hh3⟩ := hh2.pushStrs hb envp (by rw [hp2]; omega)
  have hp3 : st₃.sp = envsAt argv envp := by rw [hsp3, hp2, henvs]
  obtain ⟨st₄, h4, hsp4, hh4⟩ := hh3.pushStrs hb argv (by rw [hp3, envsAt, strsAt]; omega)
  have hp4 : st₄.sp = strsAt argv envp := by rw [hsp4, hp3, hstrs]
  obtain ⟨pad, st₅, h5, hsp5, hh5⟩ := hh4.pad (totalWords argv.length envp.length) (by rw [hp4]; exact hn2)
  rw [hp4] at hsp5
  -- the words
  have hlen : (stackWords (ptrsFrom (strsAt argv envp) argv) (ptrsFrom (envsAt argv envp) envp)
      (stackAux argv envp ehdr phdrs loadBias interpBase)).length = totalWords argv.length envp.length := by
    have haux : (stackAux argv envp ehdr phdrs loadBias interpBase).length = 14 := rfl
    rw [stackWords_length, ptrsFrom_length, ptrsFrom_length, haux, totalWords_eq]
    omega
  obtain ⟨st, h6, hsp6, hh6⟩ := pushVectors_spec hb hh5 (ptrsFrom (strsAt argv envp) argv) (ptrsFrom (envsAt argv envp) envp)
    (stackAux argv envp ehdr phdrs loadBias interpBase) (by rw [hlen, hsp5]; exact hn3)
  refine ⟨st, pad, ?_, ?_, hh6⟩
  swap
  · rw [hsp6, hlen, hsp5]
    exact hn4
  rw [hp3] at h3
  rw [hp4] at h4
  rw [ptrsFrom_length] at h6
  have hhead : (ptrsFrom (strsAt argv envp) argv).headD a.emptyStr = strsAt argv envp := by
    cases argv with
    | nil => exact absurd rfl hargc
    | cons str l => rfl
  unfold fillStack
  rw [h1]
  show (Stack.store _ randomCells).bind _ = _
  rw [h2]
  show (if a.envpPtrs = false then some (0, st₂.pt) else (pushStrs st₂ envp).bind _) = _
  rw [he, if_neg Bool.noConfusion, h3]
  show (if a.argvPtrs = false then some (0, st₃.pt) else (pushStrs st₃ argv).bind _) = _
  rw [ha, if_neg Bool.noConfusion, h4]
  show (pushVectors (if totalWords argv.length envp.length % 2 ≠ 0 then st₄.align.down 8 else st₄.align) _ _ _ _).bind _ = _
  rw [← h5, hhead, hp1, hp2]
  unfold stackAux at h6
  rw [h6]
  rfl

/-- Without its arrays `fillStack` returns 0. -/
theorem fillStack_arrays {sp : Nat} {pt' : State}
    (h : fillStack pt a argv envp ehdr phdrs loadBias interpBase = some (sp, pt')) (hsp : sp ≠ 0) :
    a.envpPtrs = true ∧ a.argvPtrs = true := by
  unfold fillStack at h
  obtain ⟨st₁, -, h⟩ := Option.bind_eq_some_iff.1 h
  obtain ⟨st₂, -, h⟩ := Option.bind_eq_some_iff.1 h
  dsimp only at h
  split at h
  · cases h
    exact absurd rfl hsp
  rename_i he
  obtain ⟨⟨envpPtrs, st₃⟩, -, h⟩ := Option.bind_eq_some_iff.1 h
  dsimp only at h
  split at h
  · cases h
    exact absurd rfl hsp
  rename_i ha
  exact ⟨Bool.not_eq_false _ ▸ he, Bool.not_eq_false _ ▸ ha⟩

end Fill

/-! ## What the program reads -/

/-- `argc`, the pointers up to each `NULL`, and the pairs up to `AT_NULL`, as the ABI has a program read them. -/
def readStack (m : Nat → Option Nat) (fuel sp : Nat) : Option (Nat × List Nat × List Nat × List (Nat × Nat)) := do
  let argc ← readLe m 8 sp
  let (argv, e) ← readVec m fuel (sp + 8)
  let (envp, e) ← readVec m fuel e
  let auxv ← readPairs m fuel e
  some (argc, argv, envp, auxv)

/-- The string a program finds. -/
def CStr.read (str : CStr) : Option (List Nat) := some (str.bytes.map UInt8.toNat)

/-- Addresses and lengths. -/
def Apart (p q : Nat × Nat) : Prop := p.1 + p.2 ≤ q.1 ∨ q.1 + q.2 ≤ p.1

/-- The words, the strings, the random bytes and the platform string. -/
def stackRanges (sp : Nat) (argv envp : List CStr) (argvPtrs envpPtrs : List Nat) (random platform : Nat) : List (Nat × Nat) :=
  (sp, 8 * totalWords argv.length envp.length) :: (argvPtrs.zip (argv.map (·.cells.length)) ++
    (envpPtrs.zip (envp.map (·.cells.length)) ++ [(random, randomCells.length), (platform, platformCells.length)]))

/-- **The stack reads as what `exec` was given.** -/
def StackReads (m : Nat → Option Nat) (sp : Nat) (argv envp : List CStr) (ehdr : StackEhdr) (phdrs : List Elf64Phdr)
    (loadBias interpBase : Nat) : Prop :=
  ∃ argvPtrs envpPtrs platform random,
    readStack m userStackSize sp = some (argv.length, argvPtrs, envpPtrs,
      (auxEntries ehdr phdrs loadBias interpBase platform random (argvPtrs.headD 0)).reverse) ∧
    argvPtrs.map (readStr m userStackSize) = argv.map CStr.read ∧
    envpPtrs.map (readStr m userStackSize) = envp.map CStr.read ∧
    readStr m userStackSize platform = some [0x78, 0x38, 0x36, 0x5F, 0x36, 0x34] ∧
    BytesAt m random randomCells ∧
    (stackRanges sp argv envp argvPtrs envpPtrs random platform).Pairwise Apart ∧
    ∀ p ∈ stackRanges sp argv envp argvPtrs envpPtrs random platform, stackBase ≤ p.1 ∧ p.1 + p.2 ≤ userStackTop

section Read

variable {m : Nat → Option Nat} {a : Nat}

/-- **The words are read back.** -/
theorem wordsAt_of_cells : ∀ {ws : List Nat} {a : Nat}, BytesAt m a (wordCells ws) → (∀ w ∈ ws, w < word64) → WordsAt m a ws
  | [], _, _, _ => trivial
  | w :: ws, a, h, hw => by
    have hcells : wordCells (w :: ws) = leBytes 8 w ++ wordCells ws := rfl
    rw [hcells, bytesAt_append, leBytes_length] at h
    refine ⟨?_, wordsAt_of_cells h.2 fun v hv => hw v (List.mem_cons_of_mem w hv)⟩
    have hread := readLe_of_bytesAt h.1
    have hlt : w < 256 ^ 8 := hw w List.mem_cons_self
    rw [leBytes_length, leValue_leBytes, Nat.mod_eq_of_lt hlt] at hread
    exact hread

theorem cells_length (str : CStr) : str.cells.length = str.bytes.length + 1 := by
  rw [CStr.cells, List.length_append, List.length_singleton]

/-- **The strings are read back.** -/
theorem readStrs_of_cells {fuel : Nat} : ∀ {l : List CStr} {a : Nat}, BytesAt m a (strCells l) → (strCells l).length ≤ fuel →
    (ptrsFrom a l).map (readStr m fuel) = l.map CStr.read
  | [], _, _, _ => rfl
  | str :: l, a, h, hf => by
    have hcells : strCells (str :: l) = str.cells ++ strCells l := rfl
    rw [hcells, bytesAt_append] at h
    rw [hcells, List.length_append] at hf
    have hlen := cells_length str
    rw [ptrsFrom, List.map_cons, List.map_cons, readStrs_of_cells h.2 (by omega),
      readStr_of_bytesAt h.1 str.noNul (by omega)]
    rfl

theorem ptrsFrom_bounds : ∀ {l : List CStr} {a p : Nat}, p ∈ ptrsFrom a l → a ≤ p ∧ p < a + (strCells l).length
  | str :: l, a, p, h => by
    have hcells : strCells (str :: l) = str.cells ++ strCells l := rfl
    have hlen := cells_length str
    rw [hcells, List.length_append]
    rw [ptrsFrom, List.mem_cons] at h
    rcases h with rfl | h
    · omega
    · have ih := ptrsFrom_bounds h
      omega

/-- Ranges between `a` and `b`, one after another. -/
def InOrder (a b : Nat) (l : List (Nat × Nat)) : Prop :=
  l.Pairwise (fun p q => p.1 + p.2 ≤ q.1) ∧ ∀ p ∈ l, a ≤ p.1 ∧ p.1 + p.2 ≤ b

theorem InOrder.nil (a b : Nat) : InOrder a b [] := ⟨List.Pairwise.nil, fun _ hp => absurd hp List.not_mem_nil⟩

theorem InOrder.mono {a b a' b' : Nat} {l : List (Nat × Nat)} (h : InOrder a b l) (ha : a' ≤ a) (hb : b ≤ b') :
    InOrder a' b' l :=
  ⟨h.1, fun p hp => ⟨Nat.le_trans ha (h.2 p hp).1, Nat.le_trans (h.2 p hp).2 hb⟩⟩

theorem InOrder.append {a b c : Nat} {l l' : List (Nat × Nat)} (h : InOrder a b l) (h' : InOrder b c l') (hab : a ≤ b)
    (hbc : b ≤ c) : InOrder a c (l ++ l') := by
  refine ⟨List.pairwise_append.2 ⟨h.1, h'.1, fun p hp q hq => Nat.le_trans (h.2 p hp).2 (h'.2 q hq).1⟩, fun p hp => ?_⟩
  rcases List.mem_append.1 hp with hp | hp
  · exact ⟨(h.2 p hp).1, Nat.le_trans (h.2 p hp).2 hbc⟩
  · exact ⟨Nat.le_trans hab (h'.2 p hp).1, (h'.2 p hp).2⟩

theorem inOrder_singleton (a n : Nat) : InOrder a (a + n) [(a, n)] := by
  refine ⟨List.pairwise_singleton _ _, fun p hp => ?_⟩
  rw [List.mem_singleton.1 hp]
  exact ⟨Nat.le_refl _, Nat.le_refl _⟩

/-- **The strings do not overlap**, and lie where they are put. -/
theorem ptrsFrom_ranges : ∀ (l : List CStr) (a : Nat),
    InOrder a (a + (strCells l).length) ((ptrsFrom a l).zip (l.map (·.cells.length)))
  | [], a => InOrder.nil _ _
  | str :: l, a => by
    have ih := ptrsFrom_ranges l (a + str.cells.length)
    have hcells : (strCells (str :: l)).length = str.cells.length + (strCells l).length := List.length_append
    rw [ptrsFrom, List.map_cons, List.zip_cons_cons, hcells, ← Nat.add_assoc]
    exact InOrder.append (inOrder_singleton a _) ih (Nat.le_add_right _ _) (Nat.le_add_right _ _)

end Read

section Decode

variable {s₀ : State} {r : Nat} {st : Stack} {pad : List UInt8} {argv envp : List CStr} {ehdr : StackEhdr}
  {phdrs : List Elf64Phdr} {loadBias interpBase : Nat}

/-- The types are not `AT_NULL`. -/
theorem stackAux_types (e : Nat × Nat) (he : e ∈ stackAux argv envp ehdr phdrs loadBias interpBase) :
    e.1 ≠ 0 ∧ e.1 < word64 := by
  have htypes : ∀ t ∈ [atSecure, atPlatform, atRandom, atHwcap2, atHwcap, atClktck, atFlags, atBase, atEntry, atPagesz, atPhnum,
      atPhent, atPhdr, atExecfn], t ≠ 0 ∧ t < word64 := by decide
  exact htypes e.1 (List.mem_map_of_mem he)

/-- The values are words of 64 bits. -/
theorem stackAux_values (hn : ehdr.ePhnum < word64) (hi : interpBase < word64) (e : Nat × Nat)
    (he : e ∈ stackAux argv envp ehdr phdrs loadBias interpBase) : e.2 < word64 := by
  have hphdr : phdrAddr ehdr phdrs loadBias < word64 := by
    unfold phdrAddr
    split <;> exact add64_lt _ _
  have hstrs : strsAt argv envp < word64 := by
    unfold strsAt userStackTop word64
    omega
  have hvalues : ∀ v ∈ [0, userStackTop - 16, userStackTop - 32, 0, 0x1f8bfbff, 100, 0, interpBase,
      add64 ehdr.eEntry loadBias, pageSize, ehdr.ePhnum, 56, phdrAddr ehdr phdrs loadBias, strsAt argv envp], v < word64 := by
    simp only [List.forall_mem_cons, List.not_mem_nil, false_imp_iff, implies_true, and_true]
    exact ⟨by decide, by decide, by decide, by decide, by decide, by decide, by decide, hi, add64_lt _ _, by decide, hn,
      by decide, hphdr, hstrs⟩
  exact hvalues e.2 (List.mem_map_of_mem he)

/-- Every word of the stack fits, and no pointer is `NULL`. -/
theorem stackWords_lt (hfits : stackBytes argv envp ≤ userStackSize) (hn : ehdr.ePhnum < word64) (hi : interpBase < word64) :
    ∀ w ∈ stackWords (ptrsFrom (strsAt argv envp) argv) (ptrsFrom (envsAt argv envp) envp)
      (stackAux argv envp ehdr phdrs loadBias interpBase), w < word64 := by
  have htop : userStackTop < word64 := by decide
  have hsize := stackBytes_eq argv envp
  have hstrs : strsAt argv envp = userStackTop - 32 - ((strCells argv).length + (strCells envp).length) := rfl
  have henvs : envsAt argv envp = strsAt argv envp + (strCells argv).length := rfl
  have hlim : userStackSize < userStackTop := by decide
  intro w hw
  simp only [stackWords, List.mem_append, List.mem_cons, List.not_mem_nil, or_false, List.mem_flatMap, List.mem_reverse] at hw
  rcases hw with (rfl | hw | rfl) | (hw | rfl) | ⟨e, he, rfl | rfl⟩ | rfl | rfl
  · rw [ptrsFrom_length]
    omega
  · have := ptrsFrom_bounds hw
    omega
  · decide
  · have := ptrsFrom_bounds hw
    omega
  · decide
  · exact (stackAux_types e he).2
  · exact stackAux_values hn hi e he
  · decide
  · decide

theorem ptrsFrom_ne_zero {l : List CStr} {a : Nat} (h : 0 < a) : 0 ∉ ptrsFrom a l := fun hc => by
  have := ptrsFrom_bounds hc
  omega

/-- **The words read as `argc`, the pointers and the vector.** -/
theorem readStack_of_words {m : Nat → Option Nat} {fuel sp : Nat} {argvPtrs envpPtrs : List Nat} {aux : List (Nat × Nat)}
    (h : WordsAt m sp (stackWords argvPtrs envpPtrs aux)) (h1 : 0 ∉ argvPtrs) (h2 : 0 ∉ envpPtrs) (h3 : ∀ e ∈ aux, e.1 ≠ 0)
    (hf1 : argvPtrs.length < fuel) (hf2 : envpPtrs.length < fuel) (hf3 : aux.length < fuel) :
    readStack m fuel sp = some (argvPtrs.length, argvPtrs, envpPtrs, aux.reverse) := by
  obtain ⟨hargv, hrest⟩ := wordsAt_append.1 h
  obtain ⟨henvp, haux⟩ := wordsAt_append.1 hrest
  have e1 : sp + 8 * (argvPtrs.length :: (argvPtrs ++ [0])).length = sp + 8 + 8 * (argvPtrs.length + 1) := by
    rw [List.length_cons, List.length_append, List.length_singleton]
    omega
  rw [e1] at henvp haux
  rw [List.length_append, List.length_singleton] at haux
  unfold readStack
  rw [hargv.1]
  show (readVec m fuel (sp + 8)).bind _ = _
  rw [readVec_of_words hargv.2 h1 hf1]
  show (readVec m fuel (sp + 8 + 8 * (argvPtrs.length + 1))).bind _ = _
  rw [readVec_of_words henvp h2 hf2]
  show (readPairs m fuel (sp + 8 + 8 * (argvPtrs.length + 1) + 8 * (envpPtrs.length + 1))).bind _ = _
  rw [readPairs_of_words haux (fun e he => h3 e (List.mem_reverse.1 he)) (by rw [List.length_reverse]; exact hf3)]
  rfl

/-- **The list of bytes reads as what `exec` was given.** -/
theorem Holds.reads (h : Holds s₀ r st (wordCells (stackWords (ptrsFrom (strsAt argv envp) argv) (ptrsFrom (envsAt argv envp) envp)
      (stackAux argv envp ehdr phdrs loadBias interpBase)) ++
        (pad ++ (strCells argv ++ (strCells envp ++ (randomCells ++ (platformCells ++ List.replicate 9 0)))))))
    (hsp : st.sp = userStackTop - stackBytes argv envp) (hargc : argv ≠ []) (hfits : stackBytes argv envp ≤ userStackSize)
    (hn : ehdr.ePhnum < word64) (hi : interpBase < word64) :
    StackReads (userByte st.pt) st.sp argv envp ehdr phdrs loadBias interpBase := by
  have hsize := stackBytes_eq argv envp
  have hwords := totalWords_eq argv.length envp.length
  have hstrs : strsAt argv envp = userStackTop - 32 - ((strCells argv).length + (strCells envp).length) := rfl
  have henvs : envsAt argv envp = strsAt argv envp + (strCells argv).length := rfl
  have hlim : userStackSize < userStackTop := by decide
  have hbase : stackBase + userStackSize = userStackTop := rfl
  have hrandom : randomCells.length = 16 := rfl
  have hplatform : platformCells.length = 7 := rfl
  have htop := h.top
  have hlen := stackWords_length (ptrsFrom (strsAt argv envp) argv) (ptrsFrom (envsAt argv envp) envp)
    (stackAux argv envp ehdr phdrs loadBias interpBase)
  have haux : (stackAux argv envp ehdr phdrs loadBias interpBase).length = 14 := rfl
  rw [ptrsFrom_length, ptrsFrom_length, haux] at hlen
  simp only [List.length_append, wordCells_length, hlen, hrandom, hplatform, List.length_replicate] at htop
  -- where each part is
  have hcells := h.cells
  simp only [bytesAt_append, wordCells_length, hlen] at hcells
  obtain ⟨hw, -, hargv, henvp, hrand, hplat, -⟩ := hcells
  have e1 : st.sp + 8 * (argv.length + envp.length + 2 * 14 + 5) + pad.length = strsAt argv envp := by omega
  have e2 : envsAt argv envp + (strCells envp).length = userStackTop - 32 := by omega
  have e3 : userStackTop - 32 + randomCells.length = userStackTop - 16 := rfl
  rw [e1] at hargv henvp hrand hplat
  rw [← henvs] at henvp hrand hplat
  rw [e2] at hrand hplat
  rw [e3] at hplat
  have hws := wordsAt_of_cells hw (stackWords_lt hfits hn hi)
  have hranges : InOrder st.sp userStackTop (stackRanges st.sp argv envp (ptrsFrom (strsAt argv envp) argv)
      (ptrsFrom (envsAt argv envp) envp) (userStackTop - 32) (userStackTop - 16)) := by
    have h1 := inOrder_singleton st.sp (8 * totalWords argv.length envp.length)
    have h2 := ptrsFrom_ranges argv (strsAt argv envp)
    have h3 := ptrsFrom_ranges envp (envsAt argv envp)
    have h4 := inOrder_singleton (userStackTop - 32) randomCells.length
    have h5 := (inOrder_singleton (userStackTop - 16) platformCells.length).mono (Nat.le_refl _)
      (by decide : _ ≤ userStackTop)
    rw [← henvs] at h2
    rw [e2] at h3
    rw [e3] at h4
    exact (h1.mono (Nat.le_refl _) (by omega : _ ≤ strsAt argv envp)).append
      (h2.append (h3.append (h4.append h5 (by decide) (by decide)) (by omega) (by decide)) (by omega) (by omega))
      (by omega) (by omega)
  refine ⟨ptrsFrom (strsAt argv envp) argv, ptrsFrom (envsAt argv envp) envp, userStackTop - 16, userStackTop - 32, ?_,
    readStrs_of_cells hargv (by omega), readStrs_of_cells henvp (by omega), ?_, hrand, ?_, ?_⟩
  · have hread : readStack (userByte st.pt) userStackSize st.sp = _ := readStack_of_words hws (ptrsFrom_ne_zero (by omega))
      (ptrsFrom_ne_zero (by omega)) (fun e he => (stackAux_types e he).1) (by rw [ptrsFrom_length]; omega) (by rw [ptrsFrom_length]; omega)
      (by rw [haux]; decide)
    have hhead : (ptrsFrom (strsAt argv envp) argv).headD 0 = strsAt argv envp := by
      cases argv with
      | nil => exact absurd rfl hargc
      | cons str l => rfl
    rw [hhead, hread, ptrsFrom_length]
    rfl
  · have hcells : platformCells = [0x78, 0x38, 0x36, 0x5F, 0x36, 0x34] ++ [0] := rfl
    rw [hcells] at hplat
    exact readStr_of_bytesAt hplat (by decide) (by decide)
  · exact hranges.1.imp fun hp => Or.inl hp
  · exact fun p hp => ⟨Nat.le_trans h.base (hranges.2 p hp).1, (hranges.2 p hp).2⟩

end Decode

/-! ## Free pages -/

/-- `n` pages are free, or more. -/
structure Room (s : State) (n : Nat) : Prop where
  base : 0 < s.bitmapBase
  free : ∃ l : List Nat, l.Nodup ∧ n ≤ l.length ∧ ∀ i ∈ l, i < bitmapPages ∧ s.pageBitmap i = true

section Room

variable {s s' : State} {m n : Nat}

theorem Room.exists_free (h : Room s (n + 1)) : ∃ t, s.Free t := by
  obtain ⟨l, -, hl, hf⟩ := h.free
  obtain ⟨i, hi⟩ := List.exists_mem_of_length_pos (Nat.lt_of_lt_of_le (Nat.succ_pos n) hl)
  exact ⟨_, i, (hf i hi).1, (hf i hi).2, rfl⟩

theorem Room.mono (h : Room s m) (hn : n ≤ m) : Room s n := by
  obtain ⟨l, hd, hl, hf⟩ := h.free
  exact ⟨h.base, l, hd, Nat.le_trans hn hl, hf⟩

/-- **A page is found**, and one less is free. -/
theorem Room.alloc (h : Room s (n + 1)) : ∃ p s₁, pmmAllocPage s = (p + 1, s₁) ∧ Room s₁ n := by
  obtain ⟨l, hd, hl, hf⟩ := h.free
  unfold pmmAllocPage
  cases hi : firstFree s.pageBitmap bitmapPages 0 with
  | none =>
    obtain ⟨j, hj⟩ := List.exists_mem_of_length_pos (Nat.lt_of_lt_of_le (Nat.succ_pos n) hl)
    obtain ⟨hlt, hfree⟩ := hf j hj
    have hnone := firstFree_none hi (Nat.zero_le j) (by omega)
    rw [hfree] at hnone
    cases hnone
  | some i =>
    obtain ⟨p, hp⟩ : ∃ p, s.bitmapBase + i * pageSize = p + 1 :=
      Nat.exists_eq_succ_of_ne_zero (Nat.ne_of_gt (Nat.lt_of_lt_of_le h.base (Nat.le_add_right _ _)))
    refine ⟨p, _, congrArg (·, _) hp, h.base, l.erase i, hd.erase i, ?_, fun j hj => ?_⟩
    · have := List.le_length_erase (a := i) (l := l)
      omega
    · obtain ⟨hne, hj⟩ := hd.mem_erase_iff.1 hj
      refine ⟨(hf j hj).1, ?_⟩
      show Function.update s.pageBitmap i false j = true
      rw [Function.update_of_ne hne]
      exact (hf j hj).2

theorem Room.table (h : Room s (n + 1)) (table index : Nat) : Room (getOrCreateTable s table index).2 n := by
  unfold getOrCreateTable
  split
  · obtain ⟨p, s₁, ha, h1⟩ := h.alloc
    rw [ha]
    exact ⟨h1.base, h1.free⟩
  · have h1 := h.mono (Nat.le_succ n)
    exact ⟨h1.base, h1.free⟩

/-- At most three tables are made for a page. -/
theorem Room.mapPage (h : Room s (n + 3)) (virt phys flags : Nat) : Room (vmmMapPage s virt phys flags) n := by
  unfold vmmMapPage
  split
  · exact h.mono (Nat.le_add_right n 3)
  dsimp only
  generalize (if pteNx ≤ virt then s.kernelPml4 else readCr3 s) = pgd
  have h3 := h.table pgd (pml4Idx virt)
  generalize getOrCreateTable s pgd (pml4Idx virt) = res at h3 ⊢
  obtain ⟨_ | pdpt, s₃⟩ := res
  · exact Room.mono h3 (Nat.le_add_right n 2)
  have h2 := Room.table h3 pdpt (pdptIdx virt)
  dsimp only at h2 ⊢
  generalize getOrCreateTable s₃ pdpt (pdptIdx virt) = res at h2 ⊢
  obtain ⟨_ | pd, s₂⟩ := res
  · exact Room.mono h2 (Nat.le_succ n)
  have h1 := Room.table h2 pd (pdIdx virt)
  dsimp only at h1 ⊢
  generalize getOrCreateTable s₂ pd (pdIdx virt) = res at h1 ⊢
  obtain ⟨_ | pt, s₁⟩ := res
  · exact h1
  · exact ⟨h1.base, h1.free⟩

/-- **`vmm_alloc_pages` succeeds** where four pages are free for each of its own. -/
theorem Room.allocLoop (virt flags : Nat) : ∀ {k : Nat} (off : Nat) {s : State}, Room s (n + 4 * k) →
    ∃ s', vmmAllocLoop virt flags k off s = (true, s') ∧ Room s' n
  | 0, _, s, h => ⟨s, rfl, h⟩
  | k + 1, off, s, h => by
    obtain ⟨p, s₁, ha, h1⟩ := Room.alloc (n := n + 4 * k + 3) h
    unfold vmmAllocLoop
    rw [ha]
    exact Room.allocLoop virt flags (off + pageSize) (Room.mapPage h1 (add64 virt off) (p + 1) flags)

end Room

/-! ## `build_user_stack` -/

section Build

variable {s₀ s s' : System} {k sp : Nat}

/-- The stack's pages are mapped, and cleared. -/
theorem holds_of_memset {pt pt' : State} {prot : Nat} (hb : 0 < s₀.pt.bitmapBase) (h : Loads s₀ s k)
    (ha : (vmmAllocPages s.pt stackBase userStackSize prot).2 = pt)
    (hw : writeUser pt stackBase (List.replicate userStackSize 0) = some pt') :
    Holds s₀.pt (s.pgd k) ⟨pt', userStackTop⟩ [] := by
  have hend : stackBase + 0 + (userStackSize + (pageSize - 1)) / pageSize * pageSize ≤ userTop := by decide
  obtain ⟨-, h1⟩ := h.pt.allocLoop (vmmFlags prot) (allocUser_of_range hend)
  rw [← vmmAllocPages_snd, ha] at h1
  have hsum : stackBase + userStackSize = userStackTop := rfl
  have hle : stackBase + (List.replicate userStackSize (0 : UInt8)).length ≤ userTop := by
    rw [List.length_replicate, hsum]
    decide
  obtain ⟨h2, hz, -⟩ := writeUser_some hb h1 hle hw
  refine ⟨h2, Nat.add_zero _, (by decide : stackBase ≤ userStackTop), fun x hx1 hx2 => ?_, BytesAt.nil⟩
  have hx2 : x < userStackTop := hx2
  have hi : x - stackBase < userStackSize := by omega
  have hcell := hz (x - stackBase) (by rw [List.length_replicate]; exact hi)
  have hx : stackBase + (x - stackBase) = x := by omega
  rw [hx, List.getElem?_replicate_of_lt hi] at hcell
  exact hcell

/-- **The stack is built** where there are pages for it. -/
theorem buildUserStack_some (mm : Option Nat) (a : StackAnswers) (argv envp : List CStr) (ehdr : StackEhdr)
    (phdrs : List Elf64Phdr) (loadBias interpBase : Nat) (hb : 0 < s₀.pt.bitmapBase) (h : Loads s₀ s k) (hargc : argv ≠ [])
    (hfits : stackBytes argv envp ≤ userStackSize) (hroom : Room s.pt (1 + 4 * 512)) (he : a.envpPtrs = true)
    (ha : a.argvPtrs = true) :
    ∃ sp s', buildUserStack s mm a argv envp ehdr phdrs loadBias interpBase = some (sp, s') ∧ sp ≠ 0 := by
  obtain ⟨pt, hloop, hfree⟩ := hroom.allocLoop stackBase (vmmFlags (vmmProtRead ||| vmmProtWrite ||| vmmProtUser)) 0
  have halloc : vmmAllocPages s.pt stackBase userStackSize (vmmProtRead ||| vmmProtWrite ||| vmmProtUser) =
      (stackBase, pt) := by
    unfold vmmAllocPages
    have hturns : (userStackSize + (pageSize - 1)) / pageSize = 512 := rfl
    rw [hturns, hloop]
  have hend : stackBase + 0 + 512 * pageSize = userStackTop := rfl
  have htop : userStackTop ≤ userTop := by decide
  have hmapped := fun x hx hd h0 hle => (userByte_allocLoop (x := x) hb hx h.pt hd h0 hle hloop hfree.exists_free).1
  have hload := h.pt.allocLoop (vmmFlags (vmmProtRead ||| vmmProtWrite ||| vmmProtUser))
    (allocUser_of_range (hend.trans_le htop))
  rw [hloop] at hload
  rw [hend, Nat.add_zero] at hmapped
  have hsum : stackBase + (List.replicate userStackSize (0 : UInt8)).length = userStackTop := by
    rw [List.length_replicate]
    rfl
  obtain ⟨pt₁, hw⟩ := writeUser_isSome hb hload.2 (hsum.trans_le htop) fun x h1 h2 => by
    rw [hsum] at h2
    exact hmapped x (Nat.lt_of_lt_of_le h2 htop) (by decide) (by decide) htop ⟨h1, h2⟩
  have hholds := holds_of_memset hb h (congrArg Prod.snd halloc) hw
  obtain ⟨st, -, hfill, hst, -⟩ := fillStack_spec ehdr phdrs loadBias interpBase hb hholds hargc hfits he ha
  refine ⟨st.sp, ⟨stackArea s.vm mm a.node, st.pt, s.pgd⟩, ?_, ?_⟩
  · unfold buildUserStack
    rw [halloc]
    show (writeUser pt stackBase _).bind _ = _
    rw [hw]
    show (fillStack pt₁ a argv envp ehdr phdrs loadBias interpBase).bind _ = _
    rw [hfill]
    rfl
  · have hlim : userStackSize < userStackTop := by decide
    omega

/-- **The stack that was built reads back**, and its pointer is 16-byte aligned. -/
theorem buildUserStack_reads (mm : Option Nat) (a : StackAnswers) (argv envp : List CStr) (ehdr : StackEhdr) (phdrs : List Elf64Phdr)
    (loadBias interpBase : Nat) (hb : 0 < s₀.pt.bitmapBase) (h : Loads s₀ s k) (hargc : argv ≠ [])
    (hfits : stackBytes argv envp ≤ userStackSize) (hn : ehdr.ePhnum < word64) (hi : interpBase < word64)
    (hr : buildUserStack s mm a argv envp ehdr phdrs loadBias interpBase = some (sp, s')) (hsp : sp ≠ 0) :
    StackReads (userByte s'.pt) sp argv envp ehdr phdrs loadBias interpBase ∧ sp % 16 = 0 := by
  unfold buildUserStack at hr
  split at hr
  · cases hr
    exact absurd rfl hsp
  rename_i pt _ ha
  obtain ⟨pt₁, hw, hr⟩ := Option.bind_eq_some_iff.1 hr
  obtain ⟨⟨sp', pt₂⟩, hf, hr⟩ := Option.bind_eq_some_iff.1 hr
  cases hr
  have hholds := holds_of_memset hb h (congrArg Prod.snd ha) hw
  obtain ⟨he1, he2⟩ := fillStack_arrays hf hsp
  obtain ⟨st, pad, hfill, hst, hend⟩ := fillStack_spec ehdr phdrs loadBias interpBase hb hholds hargc hfits he1 he2
  rw [hf] at hfill
  cases hfill
  have h16 : (userStackTop - stackBytes argv envp) % 16 = 0 := by
    have hsize := stackBytes_eq argv envp
    have htop : userStackTop = 140737488347136 := rfl
    have hlim : userStackSize < userStackTop := by decide
    omega
  refine ⟨hend.reads hst hargc hfits hn hi, ?_⟩
  rw [hst]
  exact h16

/-- **The initial stack decodes to what `exec` was given** whenever the allocations succeed, with a 16-byte aligned pointer;
and they do where there are the pages for it and the two lists of pointers. -/
theorem stack_decodes (mm : Option Nat) (a : StackAnswers) (argv envp : List CStr) (ehdr : StackEhdr) (phdrs : List Elf64Phdr)
    (loadBias interpBase : Nat) (hb : 0 < s₀.pt.bitmapBase) (h : Loads s₀ s k) (hargc : argv ≠ [])
    (hfits : stackBytes argv envp ≤ userStackSize) (hn : ehdr.ePhnum < word64) (hi : interpBase < word64) :
    (∀ sp s', buildUserStack s mm a argv envp ehdr phdrs loadBias interpBase = some (sp, s') → sp ≠ 0 →
      StackReads (userByte s'.pt) sp argv envp ehdr phdrs loadBias interpBase ∧ sp % 16 = 0) ∧
    (Room s.pt (1 + 4 * 512) → a.envpPtrs = true → a.argvPtrs = true →
      ∃ sp s', buildUserStack s mm a argv envp ehdr phdrs loadBias interpBase = some (sp, s') ∧ sp ≠ 0) :=
  ⟨fun _ _ hr hsp => buildUserStack_reads mm a argv envp ehdr phdrs loadBias interpBase hb h hargc hfits hn hi hr hsp,
    fun hroom he ha => buildUserStack_some mm a argv envp ehdr phdrs loadBias interpBase hb h hargc hfits hroom he ha⟩

/-- A machine with 4000 pages, and the process of an `exec` in it. -/
def stackSystem : System := { bootSystem with pt := bootPages 4000 }

def stackLoad : System := switchMmTo (mmAlloc stackSystem (some 0)).2 0

theorem stackLoad_loads : Loads stackSystem stackLoad 0 := by
  have hk : (mmAlloc stackSystem (some 0)).1 = some 0 := by decide +kernel
  exact (mmAlloc_loads (bootPages_booted 4000) (Prod.ext hk rfl)).1

theorem stackLoad_room : Room stackLoad.pt (1 + 4 * 512) := by
  have hlen := @List.length_range' 2 1 2049
  refine ⟨by decide +kernel, List.range' 2 2049, List.nodup_range', by omega, fun i hi => ?_⟩
  obtain ⟨h1, h2⟩ := List.mem_range'_1.1 hi
  have hmap : stackLoad.pt.pageBitmap = Function.update (bootPages 4000).pageBitmap 1 false := rfl
  have hne : i ≠ 1 := by omega
  rw [hmap, Function.update_of_ne hne]
  exact ⟨by unfold bitmapPages; omega, decide_eq_true ⟨by omega, by omega⟩⟩

/-- `init` with `HOME=/`. -/
def initArgv : List CStr := [⟨[0x69, 0x6E, 0x69, 0x74], by decide⟩]

def initEnvp : List CStr := [⟨[0x48, 0x4F, 0x4D, 0x45, 0x3D, 0x2F], by decide⟩]

theorem stack_decodes_init : ∃ sp s', sp ≠ 0 ∧
    buildUserStack stackLoad (some 0) ⟨some 0, true, true, 0⟩ initArgv initEnvp ⟨codeEhdr, 0x400078⟩ codePhdrs 0 0 =
      some (sp, s') ∧
    StackReads (userByte s'.pt) sp initArgv initEnvp ⟨codeEhdr, 0x400078⟩ codePhdrs 0 0 ∧ sp % 16 = 0 := by
  have hb : 0 < stackSystem.pt.bitmapBase := by decide
  have hfits : stackBytes initArgv initEnvp ≤ userStackSize := by decide
  obtain ⟨hreads, hsome⟩ := stack_decodes (some 0) ⟨some 0, true, true, 0⟩ initArgv initEnvp ⟨codeEhdr, 0x400078⟩ codePhdrs 0 0
    hb stackLoad_loads (List.cons_ne_nil _ _) hfits (by decide) (by decide)
  obtain ⟨sp, s', hr, hsp⟩ := hsome stackLoad_room rfl rfl
  exact ⟨sp, s', hsp, hr, hreads sp s' hr hsp⟩

end Build

end Exec
end Pico
