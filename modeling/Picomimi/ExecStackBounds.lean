import Picomimi.ExecStackImage
import Mathlib.Algebra.Ring.Nat
/-!
# ExecStackBounds — what `build_user_stack` writes, and where

The writes of `fillStack` in their order, each with its address, worked out from `sp` alone: `fillStack` is their replay
(`fillStack_eq`).  `sp` goes down by each of them with no test against the end of the region, so they stay in it exactly when
what they take fits (`fill_inside`).
-/
namespace Pico
namespace Exec

open Lib Paging AddrSpace

/-- A write: the address, and the bytes. -/
abbrev Write := Nat × List UInt8

/-! ## The writes -/

/-- The writes made below `sp`, one after another. -/
def writesBelow : Nat → List (List UInt8) → List Write
  | _, [] => []
  | sp, d :: l => (sub64 sp d.length, d) :: writesBelow (sub64 sp d.length) l

/-- `sp` after them. -/
def spAfter (sp : Nat) (l : List (List UInt8)) : Nat := l.foldl (fun sp d => sub64 sp d.length) sp

/-- The strings, in the order they are pushed in. -/
def strData (l : List CStr) : List (List UInt8) := (l.map CStr.cells).reverse

def wordData (ws : List Nat) : List (List UInt8) := ws.map (leBytes 8)

/-- Where strings pushed from `sp` on are. -/
def strPtrs (sp : Nat) : List CStr → List Nat
  | [] => []
  | str :: l => spAfter sp (strData (str :: l)) :: strPtrs sp l

/-- The words, in the order they are pushed in. -/
def wordsPushed (argc : Nat) (argvPtrs envpPtrs : List Nat) (aux : List (Nat × Nat)) : List Nat :=
  [0, 0] ++ (aux.flatMap fun e => [e.2, e.1]) ++ (0 :: envpPtrs.reverse) ++ (0 :: argvPtrs.reverse) ++ [argc]

/-- The writes of `fillStack`, and what it returns. -/
def fillWrites (a : StackAnswers) (argv envp : List CStr) (ehdr : StackEhdr) (phdrs : List Elf64Phdr)
    (loadBias interpBase : Nat) : List Write × Nat :=
  let platform := userStackTop - 16
  let random := userStackTop - 32
  let fixed : List Write := [(platform, platformCells), (random, randomCells)]
  let envs := spAfter random (strData envp)
  let args := spAfter envs (strData argv)
  let pad := if totalWords argv.length envp.length % 2 ≠ 0 then sub64 (alignDown args 16) 8 else alignDown args 16
  let argvPtrs := strPtrs envs argv
  let words := wordsPushed argv.length argvPtrs (strPtrs random envp)
    (auxEntries ehdr phdrs loadBias interpBase platform random (argvPtrs.headD a.emptyStr))
  if a.envpPtrs = false then (fixed, 0)
  else if a.argvPtrs = false then (fixed ++ writesBelow random (strData envp), 0)
  else
    (fixed ++ writesBelow random (strData envp) ++ writesBelow envs (strData argv) ++ writesBelow pad (wordData words),
      spAfter pad (wordData words))

/-- The writes, made one after another. -/
def replay : State → List Write → Option State
  | pt, [] => some pt
  | pt, w :: l => (writeUser pt w.1 w.2).bind fun pt => replay pt l

section Replay

variable {pt : State} {st : Stack} {sp : Nat}

theorem replay_append : ∀ (l l' : List Write) (pt : State), replay pt (l ++ l') = (replay pt l).bind fun pt => replay pt l'
  | [], _, _ => rfl
  | w :: l, l', pt => by
    rw [List.cons_append, replay, replay, Option.bind_assoc]
    exact congrArg _ (funext fun pt => replay_append l l' pt)

theorem writesBelow_append : ∀ (l l' : List (List UInt8)) (sp : Nat),
    writesBelow sp (l ++ l') = writesBelow sp l ++ writesBelow (spAfter sp l) l'
  | [], _, _ => rfl
  | _ :: l, l', _ => congrArg (_ :: ·) (writesBelow_append l l' _)

theorem spAfter_append (sp : Nat) (l l' : List (List UInt8)) : spAfter sp (l ++ l') = spAfter (spAfter sp l) l' :=
  List.foldl_append

theorem strData_cons (str : CStr) (l : List CStr) : strData (str :: l) = strData l ++ [str.cells] := List.reverse_cons

/-- One push. -/
theorem push_eq (st : Stack) (d : List UInt8) : (st.down d.length).store d =
    (replay st.pt (writesBelow st.sp [d])).map fun pt => ⟨pt, spAfter st.sp [d]⟩ := by
  show ((writeUser st.pt (sub64 st.sp d.length) d).map _) = ((writeUser st.pt (sub64 st.sp d.length) d).bind some).map _
  rw [Option.bind_fun_some]
  rfl

theorem pushWords_eq : ∀ (ws : List Nat) (st : Stack), pushWords st ws =
    (replay st.pt (writesBelow st.sp (wordData ws))).map fun pt => ⟨pt, spAfter st.sp (wordData ws)⟩
  | [], _ => rfl
  | w :: ws, st => by
    have h8 := leBytes_length 8 w
    have hpush : push64 st w = (st.down (leBytes 8 w).length).store (leBytes 8 w) := by
      rw [h8]
      rfl
    show (push64 st w).bind (fun st => pushWords st ws) = _
    rw [hpush, push_eq]
    have hdata : wordData (w :: ws) = [leBytes 8 w] ++ wordData ws := rfl
    rw [hdata, writesBelow_append, replay_append, spAfter_append, Option.bind_map, Option.map_bind]
    exact congrArg _ (funext fun pt => pushWords_eq ws _)

theorem pushStrs_eq : ∀ (l : List CStr) (st : Stack), pushStrs st l =
    (replay st.pt (writesBelow st.sp (strData l))).map fun pt => (strPtrs st.sp l, ⟨pt, spAfter st.sp (strData l)⟩)
  | [], _ => rfl
  | str :: l, st => by
    show (pushStrs st l).bind (fun q => (pushStr q.2 str).bind fun st => some (st.sp :: q.1, st)) = _
    rw [pushStrs_eq l st, strData_cons, writesBelow_append, replay_append, spAfter_append, Option.bind_map, Option.map_bind]
    refine congrArg _ (funext fun pt => ?_)
    show ((Stack.down ⟨pt, spAfter st.sp (strData l)⟩ str.cells.length).store str.cells).bind _ =
      (replay pt (writesBelow (spAfter st.sp (strData l)) [str.cells])).map _
    rw [push_eq, Option.bind_map]
    dsimp only
    cases replay pt (writesBelow (spAfter st.sp (strData l)) [str.cells]) with
    | none => rfl
    | some pt =>
      show some _ = some _
      rw [strPtrs, strData_cons, spAfter_append]

/-- The first two blocks are where the alignment leaves them. -/
theorem platform_align (pt : State) : (Stack.down ⟨pt, userStackTop⟩ 16).align = ⟨pt, userStackTop - 16⟩ :=
  congrArg (Stack.mk pt) (show alignDown (sub64 userStackTop 16) 16 = userStackTop - 16 by decide)

theorem random_align (pt : State) : (Stack.down ⟨pt, userStackTop - 16⟩ 16).align = ⟨pt, userStackTop - 32⟩ :=
  congrArg (Stack.mk pt) (show alignDown (sub64 (userStackTop - 16) 16) 16 = userStackTop - 32 by decide)

theorem pushVectors_eq (st : Stack) (argc : Nat) (argvPtrs envpPtrs : List Nat) (aux : List (Nat × Nat)) :
    pushVectors st argc argvPtrs envpPtrs aux = pushWords st (wordsPushed argc argvPtrs envpPtrs aux) := by
  have happend : ∀ (l l' : List Nat) (st : Stack), pushWords st (l ++ l') = (pushWords st l).bind fun st => pushWords st l' := by
    intro l
    induction l with
    | nil => exact fun _ _ => rfl
    | cons w l ih =>
      intro l' st
      show (push64 st w).bind (fun st => pushWords st (l ++ l')) = ((push64 st w).bind fun st => pushWords st l).bind _
      rw [Option.bind_assoc]
      exact congrArg _ (funext fun st => ih l' st)
  unfold wordsPushed
  rw [happend, happend, happend, happend]
  simp only [Option.bind_assoc]
  refine congrArg _ (funext fun st => congrArg _ (funext fun st => congrArg _ (funext fun st => congrArg _ (funext fun st => ?_))))
  exact (Option.bind_fun_some _).symm

/-- The words, at the end of `fillStack`. -/
theorem vectors_eq (pt : State) (sp argc : Nat) (argvPtrs envpPtrs : List Nat) (aux : List (Nat × Nat)) :
    ((pushVectors ⟨pt, sp⟩ argc argvPtrs envpPtrs aux).bind fun st => some (st.sp, st.pt)) =
      (replay pt (writesBelow sp (wordData (wordsPushed argc argvPtrs envpPtrs aux)))).map fun pt =>
        (spAfter sp (wordData (wordsPushed argc argvPtrs envpPtrs aux)), pt) := by
  rw [pushVectors_eq, pushWords_eq]
  generalize wordData (wordsPushed argc argvPtrs envpPtrs aux) = data
  show ((replay pt (writesBelow sp data)).map _).bind _ = _
  rw [Option.bind_map, Option.map_eq_bind]
  rfl

/-- The blocks at the top, before what follows them. -/
theorem fixed_eq (rest : Nat → Stack → Option (Nat × State)) (l : List Write) (r : Nat)
    (h : ∀ pt, rest (userStackTop - 16) ⟨pt, userStackTop - 32⟩ = (replay pt l).map fun pt => (r, pt)) (pt : State) :
    ((Stack.down ⟨pt, userStackTop⟩ 16).align.store platformCells).bind (fun st =>
      ((st.down 16).align.store randomCells).bind (rest st.sp)) =
    (replay pt ([(userStackTop - 16, platformCells), (userStackTop - 32, randomCells)] ++ l)).map fun pt => (r, pt) := by
  rw [platform_align]
  show ((writeUser pt (userStackTop - 16) platformCells).map _).bind _ =
    ((writeUser pt (userStackTop - 16) platformCells).bind _).map _
  rw [Option.bind_map, Option.map_bind]
  refine congrArg _ (funext fun pt => ?_)
  show ((Stack.down ⟨pt, userStackTop - 16⟩ 16).align.store randomCells).bind (rest (userStackTop - 16)) =
    ((writeUser pt (userStackTop - 32) randomCells).bind _).map _
  rw [random_align, Option.map_bind]
  show ((writeUser pt (userStackTop - 32) randomCells).map _).bind _ = _
  rw [Option.bind_map]
  exact congrArg _ (funext fun pt => h pt)

/-- `fillStack` after the two blocks. -/
def fillRest (a : StackAnswers) (argv envp : List CStr) (ehdr : StackEhdr) (phdrs : List Elf64Phdr) (loadBias interpBase : Nat)
    (platform : Nat) (st : Stack) : Option (Nat × State) :=
  if a.envpPtrs = false then some (0, st.pt)
  else (pushStrs st envp).bind fun envs =>
    if a.argvPtrs = false then some (0, envs.2.pt)
    else (pushStrs envs.2 argv).bind fun args =>
      let pad := if totalWords argv.length envp.length % 2 ≠ 0 then args.2.align.down 8 else args.2.align
      let aux := auxEntries ehdr phdrs loadBias interpBase platform st.sp (args.1.headD a.emptyStr)
      (pushVectors pad argv.length args.1 envs.1 aux).bind fun st => some (st.sp, st.pt)

/-- **`fillStack` is the replay of its writes.** -/
theorem fillStack_eq (pt : State) (a : StackAnswers) (argv envp : List CStr) (ehdr : StackEhdr) (phdrs : List Elf64Phdr)
    (loadBias interpBase : Nat) : fillStack pt a argv envp ehdr phdrs loadBias interpBase =
      (replay pt (fillWrites a argv envp ehdr phdrs loadBias interpBase).1).map fun pt =>
        ((fillWrites a argv envp ehdr phdrs loadBias interpBase).2, pt) := by
  have hrest : fillStack pt a argv envp ehdr phdrs loadBias interpBase =
      ((Stack.down ⟨pt, userStackTop⟩ 16).align.store platformCells).bind fun st =>
        ((st.down 16).align.store randomCells).bind (fillRest a argv envp ehdr phdrs loadBias interpBase st.sp) := rfl
  rw [hrest]
  unfold fillWrites
  dsimp only
  by_cases he : a.envpPtrs = false
  · rw [if_pos he]
    exact fixed_eq _ [] 0 (fun pt => if_pos he) pt
  rw [if_neg he]
  by_cases ha : a.argvPtrs = false
  · rw [if_pos ha]
    refine fixed_eq _ _ 0 (fun pt => ?_) pt
    refine (if_neg he).trans ?_
    rw [pushStrs_eq, Option.bind_map, Option.map_eq_bind]
    exact congrArg _ (funext fun pt => if_pos ha)
  rw [if_neg ha, List.append_assoc, List.append_assoc]
  refine fixed_eq _ _ _ (fun pt => ?_) pt
  refine (if_neg he).trans ?_
  rw [pushStrs_eq, Option.bind_map, replay_append, Option.map_bind]
  refine congrArg _ (funext fun pt => (if_neg ha).trans ?_)
  rw [pushStrs_eq, Option.bind_map]
  show _ = (replay pt _).map _
  rw [replay_append, Option.map_bind]
  refine congrArg _ (funext fun pt => ?_)
  show (pushVectors _ _ _ _ _).bind _ = (replay pt _).map _
  have hpad : (if totalWords argv.length envp.length % 2 ≠ 0
        then (Stack.align ⟨pt, spAfter (spAfter (userStackTop - 32) (strData envp)) (strData argv)⟩).down 8
        else Stack.align ⟨pt, spAfter (spAfter (userStackTop - 32) (strData envp)) (strData argv)⟩) =
      ⟨pt, if totalWords argv.length envp.length % 2 ≠ 0
        then sub64 (alignDown (spAfter (spAfter (userStackTop - 32) (strData envp)) (strData argv)) 16) 8
        else alignDown (spAfter (spAfter (userStackTop - 32) (strData envp)) (strData argv)) 16⟩ := by
    split <;> rfl
  dsimp only
  rw [hpad]
  exact vectors_eq _ _ _ _ _ _

end Replay

/-! ## Where the writes are -/

/-- The write is in the region of the stack. -/
def Inside (w : Write) : Prop := stackBase ≤ w.1 ∧ w.1 + w.2.length ≤ userStackTop

def dataBytes (l : List (List UInt8)) : Nat := (l.map List.length).sum

section Inside

variable {sp : Nat} {d : List UInt8} {l : List (List UInt8)}

/-- **One write below `sp` is inside** exactly when it fits above the end of the region. -/
theorem inside_down (hlow : userStackSize ≤ sp) (htop : sp ≤ userStackTop) :
    Inside (sub64 sp d.length, d) ↔ stackBase + d.length ≤ sp := by
  have hbase : stackBase = 140737486249984 := rfl
  have htops : userStackTop = 140737488347136 := rfl
  have hsize : userStackSize = 2097152 := rfl
  have hw : word64 = 18446744073709551616 := rfl
  show stackBase ≤ sub64 sp d.length ∧ sub64 sp d.length + d.length ≤ userStackTop ↔ _
  by_cases hd : d.length ≤ userStackSize
  · rw [sub64_of_le (Nat.le_trans hd hlow) (by omega)]
    omega
  · constructor
    · intro h
      omega
    · intro h
      omega

theorem sub64_inside (h : stackBase + d.length ≤ sp) (htop : sp ≤ userStackTop) : sub64 sp d.length = sp - d.length := by
  have htops : userStackTop = 140737488347136 := rfl
  have hw : word64 = 18446744073709551616 := rfl
  exact sub64_of_le (by omega) (by omega)

/-- Where the writes end, when they fit. -/
theorem spAfter_fits : ∀ (l : List (List UInt8)) (sp : Nat), stackBase + dataBytes l ≤ sp → sp ≤ userStackTop →
    spAfter sp l = sp - dataBytes l
  | [], _, _, _ => rfl
  | d :: l, sp, h, htop => by
    have hsum : dataBytes (d :: l) = d.length + dataBytes l := rfl
    rw [hsum] at h ⊢
    show spAfter (sub64 sp d.length) l = _
    rw [sub64_inside (by omega) htop, spAfter_fits l _ (by omega) (by omega)]
    omega

/-- **Writes one below another are inside** exactly when the bytes of them all fit. -/
theorem inside_below : ∀ (l : List (List UInt8)) (sp : Nat), stackBase ≤ sp → sp ≤ userStackTop →
    ((∀ w ∈ writesBelow sp l, Inside w) ↔ stackBase + dataBytes l ≤ sp)
  | [], sp, hlow, _ => ⟨fun _ => hlow, fun _ _ hw => by cases hw⟩
  | d :: l, sp, hlow, htop => by
    have hsum : dataBytes (d :: l) = d.length + dataBytes l := rfl
    rw [hsum]
    show (∀ w ∈ (sub64 sp d.length, d) :: writesBelow (sub64 sp d.length) l, Inside w) ↔ _
    rw [List.forall_mem_cons, inside_down (Nat.le_trans (by decide) hlow) htop]
    constructor
    · rintro ⟨h1, h2⟩
      rw [sub64_inside h1 htop] at h2
      have h3 := (inside_below l _ (by omega) (by omega)).1 h2
      omega
    · intro h
      have h1 : stackBase + d.length ≤ sp := by omega
      rw [sub64_inside h1 htop]
      exact ⟨h1, (inside_below l _ (by omega) (by omega)).2 (by omega)⟩

/-- The first write decides where `sp` has not stayed in the region. -/
theorem inside_below_cons (hlow : userStackSize ≤ sp) (htop : sp ≤ userStackTop) :
    (∀ w ∈ writesBelow sp (d :: l), Inside w) ↔ stackBase + dataBytes (d :: l) ≤ sp := by
  by_cases hsp : stackBase ≤ sp
  · exact inside_below _ _ hsp htop
  · constructor
    · intro h
      have h1 := (inside_down hlow htop).1 (h _ List.mem_cons_self)
      omega
    · intro h
      omega

theorem dataBytes_append (l l' : List (List UInt8)) : dataBytes (l ++ l') = dataBytes l + dataBytes l' := by
  unfold dataBytes
  rw [List.map_append, List.sum_append]

theorem strData_bytes : ∀ l : List CStr, dataBytes (strData l) = (strCells l).length
  | [] => rfl
  | str :: l => by
    have hcells : strCells (str :: l) = str.cells ++ strCells l := rfl
    have hone : dataBytes [str.cells] = str.cells.length := rfl
    rw [strData_cons, dataBytes_append, strData_bytes l, hcells, List.length_append, hone]
    omega

theorem wordData_bytes : ∀ ws : List Nat, dataBytes (wordData ws) = 8 * ws.length
  | [] => rfl
  | w :: ws => by
    have hsum : dataBytes (wordData (w :: ws)) = (leBytes 8 w).length + dataBytes (wordData ws) := rfl
    rw [hsum, wordData_bytes ws, leBytes_length, List.length_cons]
    omega

theorem strPtrs_length : ∀ (l : List CStr) (sp : Nat), (strPtrs sp l).length = l.length
  | [], _ => rfl
  | _ :: l, sp => congrArg (· + 1) (strPtrs_length l sp)

end Inside

/-! ## The whole call -/

/-- Every write of `build_user_stack`: the region is cleared first. -/
def buildWrites (s : System) (a : StackAnswers) (argv envp : List CStr) (ehdr : StackEhdr) (phdrs : List Elf64Phdr)
    (loadBias interpBase : Nat) : List Write :=
  if (vmmAllocPages s.pt stackBase userStackSize (vmmProtRead ||| vmmProtWrite ||| vmmProtUser)).1 = 0 then []
  else (stackBase, List.replicate userStackSize 0) :: (fillWrites a argv envp ehdr phdrs loadBias interpBase).1

section Build

variable (s : System) (mm : Option Nat) (a : StackAnswers) (argv envp : List CStr) (ehdr : StackEhdr)
  (phdrs : List Elf64Phdr) (loadBias interpBase : Nat)

/-- **`build_user_stack` is the replay of its writes** in the address space that `vmm_alloc_pages` leaves. -/
theorem buildUserStack_eq : buildUserStack s mm a argv envp ehdr phdrs loadBias interpBase =
    if (vmmAllocPages s.pt stackBase userStackSize (vmmProtRead ||| vmmProtWrite ||| vmmProtUser)).1 = 0 then
      some (0, { s with
        pt := (vmmAllocPages s.pt stackBase userStackSize (vmmProtRead ||| vmmProtWrite ||| vmmProtUser)).2 })
    else
      (replay (vmmAllocPages s.pt stackBase userStackSize (vmmProtRead ||| vmmProtWrite ||| vmmProtUser)).2
        (buildWrites s a argv envp ehdr phdrs loadBias interpBase)).map fun pt =>
          ((fillWrites a argv envp ehdr phdrs loadBias interpBase).2, ⟨stackArea s.vm mm a.node, pt, s.pgd⟩) := by
  unfold buildUserStack buildWrites
  generalize vmmAllocPages s.pt stackBase userStackSize (vmmProtRead ||| vmmProtWrite ||| vmmProtUser) = r
  obtain ⟨_ | n, pt⟩ := r
  · rfl
  · rw [if_neg (Nat.succ_ne_zero n), if_neg (Nat.succ_ne_zero n)]
    show ((writeUser pt stackBase _).bind fun pt => (fillStack pt a argv envp ehdr phdrs loadBias interpBase).bind _) =
      ((writeUser pt stackBase _).bind _).map _
    rw [Option.map_bind]
    refine congrArg _ (funext fun pt => ?_)
    show _ = (replay pt _).map _
    rw [fillStack_eq, Option.bind_map, Option.map_eq_bind]
    rfl

/-- The words that are pushed, counted. -/
theorem wordsPushed_length (argc : Nat) (argvPtrs envpPtrs : List Nat) (loadBias interpBase platform random execfn : Nat) :
    (wordsPushed argc argvPtrs envpPtrs (auxEntries ehdr phdrs loadBias interpBase platform random execfn)).length =
      33 + argvPtrs.length + envpPtrs.length := by
  have haux := flatMap_pair_length (auxEntries ehdr phdrs loadBias interpBase platform random execfn) Prod.snd Prod.fst
  simp only [wordsPushed, List.length_append, List.length_cons, List.length_nil, List.length_reverse, haux]
  show 0 + 1 + 1 + 2 * 14 + (envpPtrs.length + 1) + (argvPtrs.length + 1) + (0 + 1) = _
  omega

/-- The blocks at the top are inside. -/
theorem fixed_inside : ∀ w ∈ [(userStackTop - 16, platformCells), (userStackTop - 32, randomCells)], Inside w := by
  have h1 : Inside (userStackTop - 16, platformCells) := ⟨by decide, by decide⟩
  have h2 : Inside (userStackTop - 32, randomCells) := ⟨by decide, by decide⟩
  exact List.forall_mem_cons.2 ⟨h1, List.forall_mem_cons.2 ⟨h2, fun w hw => by cases hw⟩⟩

/-- Where the words are pushed from. -/
theorem pad_eq {args words : Nat} (hlow : userStackSize ≤ args) (htop : args ≤ userStackTop) :
    (if words % 2 ≠ 0 then sub64 (alignDown args 16) 8 else alignDown args 16) = args - args % 16 - words % 2 * 8 := by
  have hmod := alignDown_add_mod args 16
  have hlt : args % 16 < 16 := Nat.mod_lt _ (by decide)
  have hsize : userStackSize = 2097152 := rfl
  have htops : userStackTop = 140737488347136 := rfl
  have hw : word64 = 18446744073709551616 := rfl
  split
  · rw [sub64_of_le (by omega) (by omega)]
    omega
  · omega

/-- The words, below the pad. -/
theorem words_inside {argc envc args w : Nat} {ws : List Nat} (hlen : (w :: ws).length = 33 + argc + envc)
    (hlow : stackBase ≤ args) (htop : args ≤ userStackTop) :
    (∀ x ∈ writesBelow (if totalWords argc envc % 2 ≠ 0 then sub64 (alignDown args 16) 8 else alignDown args 16)
      (wordData (w :: ws)), Inside x) ↔
      stackBase + (args % 16 + (33 + argc + envc) % 2 * 8 + 8 * (33 + argc + envc)) ≤ args := by
  have hbase : stackBase = 140737486249984 := rfl
  have hsize : userStackSize = 2097152 := rfl
  have hlt : args % 16 < 16 := Nat.mod_lt _ (by decide)
  have hodd : (33 + argc + envc) % 2 < 2 := Nat.mod_lt _ (by decide)
  have hcons : wordData (w :: ws) = leBytes 8 w :: wordData ws := rfl
  rw [pad_eq (by omega) htop, totalWords_eq]
  generalize hp : args - args % 16 - (33 + argc + envc) % 2 * 8 = pad
  rw [hcons, inside_below_cons (by omega) (by omega), ← hcons, wordData_bytes, hlen]
  omega

/-- **The writes are inside** exactly when what is pushed fits. -/
theorem fill_inside : (∀ w ∈ (fillWrites a argv envp ehdr phdrs loadBias interpBase).1, Inside w) ↔
    a.envpPtrs = false ∨ a.argvPtrs = false ∧ 32 + (strCells envp).length ≤ userStackSize ∨
      stackBytes argv envp ≤ userStackSize := by
  have hbase : stackBase = 140737486249984 := rfl
  have htops : userStackTop = 140737488347136 := rfl
  have hsize : userStackSize = 2097152 := rfl
  have hbytes := stackBytes_eq argv envp
  have henvs := strData_bytes envp
  have hargs := strData_bytes argv
  have h1 := inside_below (strData envp) (userStackTop - 32) (by decide) (by decide)
  rw [henvs] at h1
  unfold fillWrites
  dsimp only
  by_cases he : a.envpPtrs = false
  · rw [if_pos he]
    exact ⟨fun _ => Or.inl he, fun _ => fixed_inside⟩
  rw [if_neg he]
  by_cases ha : a.argvPtrs = false
  · rw [if_pos ha, List.forall_mem_append, h1]
    constructor
    · rintro ⟨-, h⟩
      exact Or.inr (Or.inl ⟨ha, by omega⟩)
    · rintro (h | ⟨-, h⟩ | h)
      · exact absurd h he
      · exact ⟨fixed_inside, by omega⟩
      · exact ⟨fixed_inside, by omega⟩
  rw [if_neg ha, List.forall_mem_append, List.forall_mem_append, List.forall_mem_append, h1]
  have hwords := wordsPushed_length ehdr phdrs argv.length
    (strPtrs (spAfter (userStackTop - 32) (strData envp)) argv) (strPtrs (userStackTop - 32) envp) loadBias interpBase
    (userStackTop - 16) (userStackTop - 32)
    ((strPtrs (spAfter (userStackTop - 32) (strData envp)) argv).headD a.emptyStr)
  rw [strPtrs_length, strPtrs_length] at hwords
  have hsp : stackBase + (strCells envp).length ≤ userStackTop - 32 →
      spAfter (userStackTop - 32) (strData envp) = userStackTop - 32 - (strCells envp).length := by
    intro h
    rw [← henvs] at h ⊢
    exact spAfter_fits _ _ h (by decide)
  constructor
  · rintro ⟨⟨⟨-, h2⟩, h3⟩, h4⟩
    rw [hsp h2] at h3 h4 hwords
    have h3 := (inside_below _ _ (by omega) (by omega)).1 h3
    rw [spAfter_fits _ _ h3 (by omega), hargs] at h4
    rw [hargs] at h3
    have h4 := (words_inside hwords (by omega) (by omega)).1 h4
    exact Or.inr (Or.inr (by omega))
  · rintro (h | ⟨h, -⟩ | h)
    · exact absurd h he
    · exact absurd h ha
    have h2 : stackBase + (strCells envp).length ≤ userStackTop - 32 := by omega
    rw [hsp h2] at hwords ⊢
    have h3 : stackBase + dataBytes (strData argv) ≤ userStackTop - 32 - (strCells envp).length := by
      rw [hargs]
      omega
    rw [inside_below _ _ (by omega) (by omega), spAfter_fits _ _ h3 (by omega), hargs]
    rw [hargs] at h3
    exact ⟨⟨⟨fixed_inside, h2⟩, h3⟩, (words_inside hwords (by omega) (by omega)).2 (by omega)⟩

end Build

/-- The law of the region: no write leaves it, and what does not fit in it is refused. -/
def StackLaw (s : System) (mm : Option Nat) (a : StackAnswers) (argv envp : List CStr) (ehdr : StackEhdr)
    (phdrs : List Elf64Phdr) (loadBias interpBase : Nat) : Prop :=
  (∀ w ∈ buildWrites s a argv envp ehdr phdrs loadBias interpBase, Inside w) ∧
    (userStackSize < stackBytes argv envp → ∀ sp s', buildUserStack s mm a argv envp ehdr phdrs loadBias interpBase =
      some (sp, s') → sp = 0)

section Law

variable {s : System} {mm : Option Nat} {a : StackAnswers} {argv envp : List CStr} {ehdr : StackEhdr}
  {phdrs : List Elf64Phdr} {loadBias interpBase : Nat}

/-- Without a pointer array the answer is 0. -/
theorem fillWrites_refused (h : a.envpPtrs = false ∨ a.argvPtrs = false) :
    (fillWrites a argv envp ehdr phdrs loadBias interpBase).2 = 0 := by
  unfold fillWrites
  dsimp only
  split
  · rfl
  · rename_i he
    rcases h with h | h
    · exact absurd h he
    · rw [if_pos h]

/-- The region is cleared to its end. -/
theorem region_inside {d : List UInt8} (hlen : d.length = userStackSize) : Inside (stackBase, d) := by
  have hsum : stackBase + userStackSize = userStackTop := rfl
  show stackBase ≤ stackBase ∧ stackBase + d.length ≤ userStackTop
  rw [hlen, hsum]
  exact ⟨Nat.le_refl _, Nat.le_refl _⟩

/-- **All the writes are inside** when nothing is written, or what is pushed fits. -/
theorem build_inside : (∀ w ∈ buildWrites s a argv envp ehdr phdrs loadBias interpBase, Inside w) ↔
    (vmmAllocPages s.pt stackBase userStackSize (vmmProtRead ||| vmmProtWrite ||| vmmProtUser)).1 = 0 ∨
      a.envpPtrs = false ∨ a.argvPtrs = false ∧ 32 + (strCells envp).length ≤ userStackSize ∨
        stackBytes argv envp ≤ userStackSize := by
  unfold buildWrites
  by_cases hv : (vmmAllocPages s.pt stackBase userStackSize (vmmProtRead ||| vmmProtWrite ||| vmmProtUser)).1 = 0
  · rw [if_pos hv]
    exact ⟨fun _ => Or.inl hv, fun _ w hw => by cases hw⟩
  · rw [if_neg hv, List.forall_mem_cons, and_iff_right (region_inside List.length_replicate), fill_inside]
    exact (or_iff_right hv).symm

/-- **The writes stay in the region, and what does not fit is refused**, exactly when an allocation fails before anything is
pushed out of it, or everything fits. -/
theorem stackLaw_iff : StackLaw s mm a argv envp ehdr phdrs loadBias interpBase ↔
    (vmmAllocPages s.pt stackBase userStackSize (vmmProtRead ||| vmmProtWrite ||| vmmProtUser)).1 = 0 ∨
      a.envpPtrs = false ∨ a.argvPtrs = false ∧ 32 + (strCells envp).length ≤ userStackSize ∨
        stackBytes argv envp ≤ userStackSize := by
  unfold StackLaw
  rw [build_inside, buildUserStack_eq]
  refine ⟨And.left, fun h => ⟨h, fun hbig sp s' hr => ?_⟩⟩
  split at hr
  · cases hr
    rfl
  rename_i hv
  obtain ⟨pt, -, hr⟩ := Option.map_eq_some_iff.1 hr
  cases hr
  rcases h with h | h | ⟨h, -⟩ | h
  · exact absurd h hv
  · exact fillWrites_refused (Or.inl h)
  · exact fillWrites_refused (Or.inr h)
  · omega

end Law

/-- A string of letters. -/
def letters (n : Nat) : CStr := ⟨List.replicate n 0x61, fun h => absurd (List.eq_of_mem_replicate h) (by decide)⟩

theorem letters_length (n : Nat) : (letters n).cells.length = n + 1 := by
  show (List.replicate n (0x61 : UInt8) ++ [0]).length = n + 1
  rw [List.length_append, List.length_replicate]
  rfl

theorem strCells_replicate (str : CStr) : ∀ n : Nat, (strCells (List.replicate n str)).length = n * str.cells.length
  | 0 => (Nat.zero_mul _).symm
  | n + 1 => by
    have hcons : strCells (List.replicate (n + 1) str) = str.cells ++ strCells (List.replicate n str) := rfl
    rw [hcons, List.length_append, strCells_replicate str n, Nat.succ_mul]
    omega

/-- The pages of the stack, where there is room for them. -/
theorem alloc_of_room {s : State} {n : Nat} (prot : Nat) (h : Room s (n + 4 * 512)) :
    ∃ pt, vmmAllocPages s stackBase userStackSize prot = (stackBase, pt) := by
  obtain ⟨pt, hloop, -⟩ := h.allocLoop stackBase (vmmFlags prot) 0
  refine ⟨pt, ?_⟩
  unfold vmmAllocPages
  have hturns : (userStackSize + (pageSize - 1)) / pageSize = 512 := rfl
  rw [hturns, hloop]

/-- 513 strings of a page each are one page too many. -/
theorem not_stackLaw : ¬ StackLaw stackLoad (some 0) ⟨some 0, true, true, 0⟩ (List.replicate 513 (letters 4095)) initEnvp
    ⟨codeEhdr, 0x400078⟩ codePhdrs 0 0 := by
  intro h
  rcases build_inside.1 h.1 with h | h | ⟨h, -⟩ | h
  · obtain ⟨pt, halloc⟩ := alloc_of_room (vmmProtRead ||| vmmProtWrite ||| vmmProtUser) stackLoad_room
    rw [halloc] at h
    have hne : stackBase ≠ 0 := by decide
    exact absurd h hne
  · cases h
  · cases h
  · have hsize : userStackSize = 2097152 := rfl
    rw [stackBytes_eq, strCells_replicate, letters_length] at h
    omega

end Exec
end Pico
