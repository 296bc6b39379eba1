import Picomimi.VmaRun
/-!
# VmaCopy — the list `mm_copy` makes

The copies hold what the areas held, in the order of the list, and the nodes that were in use before keep what they have.
Only `next` is looked at: the copies' `prev` is `NULL`, and a list that is itself a copy is copied all the same.
-/
namespace Pico
namespace Mm

open Lib

/-- **From the pointer `h` along `next` over the nodes `xs` to the pointer `e`.** -/
def Onward (next : Nat → Option Nat) : Option Nat → List Nat → Option Nat → Prop
  | h, [], e => h = e
  | h, x :: xs, e => h = some x ∧ Onward next (next x) xs e

variable {next next' : Nat → Option Nat} {s s' s₀ : State} {mm : MmStruct} {node : Option Nat}

theorem Onward.congr : ∀ {xs : List Nat} {h e : Option Nat}, Onward next h xs e → (∀ x ∈ xs, next' x = next x) →
    Onward next' h xs e
  | [], _, _, ho, _ => ho
  | x :: xs, _, _, ho, hag => by
    refine ⟨ho.1, ?_⟩
    rw [hag x List.mem_cons_self]
    exact ho.2.congr fun y hy => hag y (List.mem_cons_of_mem x hy)

theorem Onward.head_eq {xs : List Nat} {h : Option Nat} (ho : Onward next h xs none) : h = xs.head? := by
  cases xs with
  | nil => exact ho
  | cons x xs => exact ho.1

theorem onward_append : ∀ {xs ys : List Nat} {h e : Option Nat},
    Onward next h (xs ++ ys) e ↔ ∃ m, Onward next h xs m ∧ Onward next m ys e
  | [], ys, h, e => ⟨fun ho => ⟨h, rfl, ho⟩, fun ⟨_, h1, h2⟩ => h1 ▸ h2⟩
  | x :: xs, ys, h, e => by
    constructor
    · rintro ⟨h1, h2⟩
      obtain ⟨m, h3, h4⟩ := onward_append.1 h2
      exact ⟨m, ⟨h1, h3⟩, h4⟩
    · rintro ⟨m, ⟨h1, h3⟩, h4⟩
      exact ⟨h1, onward_append.2 ⟨m, h3, h4⟩⟩

theorem Onward.nodesFrom_eq {D : Dll Nat} : ∀ {xs : List Nat} {h : Option Nat} {fuel : Nat}, Onward D.next h xs none →
    xs.length ≤ fuel → D.nodesFrom fuel h = xs
  | [], _, fuel, ho, _ => by
    cases ho
    cases fuel <;> rfl
  | x :: xs, _, 0, _, hle => absurd hle (by simp)
  | x :: xs, _, fuel + 1, ho, hle => by
    obtain ⟨rfl, hrest⟩ := ho
    simp only [Dll.nodesFrom, hrest.nodesFrom_eq (Nat.le_of_succ_le_succ hle)]

/-- The list of an address space: its nodes are in use and different. -/
structure Listed (s : State) (mm : MmStruct) (l : List Nat) : Prop where
  onward : Onward s.links.next mm.mmap l none
  nodup : l.Nodup
  live : ∀ i ∈ l, s.live i = true

theorem Listed.nodes_eq {l : List Nat} (h : Listed s mm l) (hb : ∀ i, s.live i = true → i < s.bound) : s.nodes mm = l :=
  h.onward.nodesFrom_eq (Dll.length_le_of_lt h.nodup fun i hi => hb i (h.live i hi))

/-- **The nodes in use keep what they have.** -/
structure Keeps (s₀ s : State) : Prop where
  live : ∀ i, s₀.live i = true → s.live i = true
  vmas : ∀ i, s₀.live i = true → s.vmas i = s₀.vmas i
  next : ∀ i, s₀.live i = true → s.links.next i = s₀.links.next i

/-- **Half-way through the loop**: the nodes `A` are copied to `C`, a list from `head` to `tail`. -/
structure Copied (s₀ s : State) (A C : List Nat) (head tail : Option Nat) : Prop where
  keeps : Keeps s₀ s
  mms : s.mms = s₀.mms
  bound : ∀ i, s.live i = true → i < s.bound
  onward : Onward s.links.next head C none
  last : tail = C.getLast?
  nodup : C.Nodup
  live : ∀ c ∈ C, s.live c = true
  fresh : ∀ c ∈ C, s₀.live c = false
  areas : C.map s.vmas = A.map s₀.vmas

/-- What `vma_alloc` does. -/
theorem vmaAlloc_some {c : Nat} (ha : vmaAlloc s node = (some c, s')) : s.live c = false ∧ s'.mms = s.mms ∧
    s'.live = Function.update s.live c true ∧ s'.vmas = Function.update s.vmas c ⟨0, 0, 0, 0, 0⟩ ∧
    s'.links.next = Function.update s.links.next c none ∧ s'.bound = max s.bound (c + 1) := by
  cases node with
  | none => cases ha
  | some m =>
    simp only [vmaAlloc] at ha
    split at ha
    · cases ha
    · rename_i hl
      cases ha
      exact ⟨Bool.not_eq_true _ ▸ hl, rfl, rfl, rfl, rfl, rfl⟩

/-- The copy `c` of `i`, not linked yet. -/
theorem Copied.alloc {A C : List Nat} {head tail : Option Nat} {c i : Nat} (h : Copied s₀ s A C head tail)
    (hi : s₀.live i = true) (ha : vmaAlloc s node = (some c, s')) :
    s₀.live c = false ∧ c ∉ C ∧ s'.links.next c = none ∧ (s'.setVma c (s'.vmas i)).vmas c = s₀.vmas i ∧
      Copied s₀ (s'.setVma c (s'.vmas i)) A C head tail := by
  obtain ⟨hfree, hmms, hlive, hvmas, hnext, hbound⟩ := vmaAlloc_some ha
  have hne : ∀ j, s.live j = true → j ≠ c := by
    rintro j hj rfl
    rw [hfree] at hj
    cases hj
  have hfree₀ : s₀.live c = false := by
    by_contra hc
    exact hne c (h.keeps.live c (Bool.of_not_eq_false hc)) rfl
  have hic := hne i (h.keeps.live i hi)
  have hold : ∀ j, s.live j = true → (s'.setVma c (s'.vmas i)).vmas j = s.vmas j := by
    intro j hj
    show Function.update s'.vmas c _ j = s.vmas j
    rw [Function.update_of_ne (hne j hj), hvmas, Function.update_of_ne (hne j hj)]
  have hnext' : ∀ j, s.live j = true → s'.links.next j = s.links.next j := by
    intro j hj
    rw [hnext, Function.update_of_ne (hne j hj)]
  have hlive' : ∀ j, s.live j = true → s'.live j = true := by
    intro j hj
    rw [hlive, Function.update_of_ne (hne j hj)]
    exact hj
  refine ⟨hfree₀, fun hc => hne c (h.live c hc) rfl, by rw [hnext, Function.update_self], ?_, ⟨?_, ?_, ?_⟩, ?_, ?_, ?_, h.last,
    h.nodup, ?_, h.fresh, ?_⟩
  · show Function.update s'.vmas c _ c = _
    rw [Function.update_self, hvmas, Function.update_of_ne hic]
    exact h.keeps.vmas i hi
  · exact fun j hj => hlive' j (h.keeps.live j hj)
  · exact fun j hj => (hold j (h.keeps.live j hj)).trans (h.keeps.vmas j hj)
  · exact fun j hj => (hnext' j (h.keeps.live j hj)).trans (h.keeps.next j hj)
  · exact hmms.trans h.mms
  · intro j hj
    have hj' : Function.update s.live c true j = true := hlive ▸ hj
    show j < s'.bound
    rw [hbound]
    by_cases hjc : j = c
    · exact hjc ▸ Nat.lt_of_lt_of_le (Nat.lt_succ_self j) (Nat.le_max_right _ _)
    · rw [Function.update_of_ne hjc] at hj'
      exact Nat.lt_of_lt_of_le (h.bound j hj') (Nat.le_max_left _ _)
  · exact h.onward.congr fun x hx => hnext' x (h.live x hx)
  · exact fun d hd => hlive' d (h.live d hd)
  · rw [← h.areas]
    exact List.map_congr_left fun d hd => hold d (h.live d hd)

/-- **One more node copied and linked.** -/
theorem Copied.turn {A C : List Nat} {head tail : Option Nat} {c i : Nat} (h : Copied s₀ s A C head tail)
    (hi : s₀.live i = true) (ha : vmaAlloc s node = (some c, s')) :
    Copied s₀ (linkCopy (s'.setVma c (s'.vmas i)) tail c) (A ++ [i]) (C ++ [c]) (if tail = none then some c else head)
      (some c) := by
  obtain ⟨hfree, hnew, hnext, hval, h'⟩ := h.alloc hi ha
  have hlive : (s'.setVma c (s'.vmas i)).live c = true := by
    obtain ⟨-, -, hl, -⟩ := vmaAlloc_some ha
    show s'.live c = true
    rw [hl, Function.update_self]
  have hareas : (C ++ [c]).map (s'.setVma c (s'.vmas i)).vmas = (A ++ [i]).map s₀.vmas := by
    rw [List.map_append, List.map_append, h'.areas, List.map_singleton, List.map_singleton, hval]
  have hnodup : (C ++ [c]).Nodup := List.nodup_append.2 ⟨h.nodup, List.nodup_singleton c, fun x hx y hy hxy => by
    rw [hxy, List.mem_singleton.1 hy] at hx
    exact hnew hx⟩
  have hlive' : ∀ d ∈ C ++ [c], (s'.setVma c (s'.vmas i)).live d = true := by
    intro d hd
    rcases List.mem_append.1 hd with hd | hd
    · exact h'.live d hd
    · exact List.mem_singleton.1 hd ▸ hlive
  have hfresh : ∀ d ∈ C ++ [c], s₀.live d = false := by
    intro d hd
    rcases List.mem_append.1 hd with hd | hd
    · exact h'.fresh d hd
    · exact List.mem_singleton.1 hd ▸ hfree
  have hlast : some c = (C ++ [c]).getLast? := by rw [List.getLast?_concat]
  rcases List.eq_nil_or_concat' C with rfl | ⟨B, t, rfl⟩
  · -- the first copy is the head
    have ht : tail = none := h.last
    subst ht
    exact ⟨h'.keeps, h'.mms, h'.bound, ⟨rfl, hnext⟩, hlast, hnodup, hlive', hfresh, hareas⟩
  · have ht : tail = some t := h.last.trans (List.getLast?_concat)
    subst ht
    have hlink : (linkCopy (s'.setVma c (s'.vmas i)) (some t) c).links.next = Function.update s'.links.next t (some c) := rfl
    obtain ⟨htB, -, hdisj⟩ := List.nodup_append.1 h.nodup
    have htail : ∀ x ∈ B, x ≠ t := fun x hx => hdisj x hx t (List.mem_singleton_self t)
    have htc : c ≠ t := by
      rintro rfl
      exact hnew (List.mem_append_right B (List.mem_singleton_self c))
    have htf : s₀.live t = false := h.fresh t (List.mem_append_right B (List.mem_singleton_self t))
    refine ⟨⟨h'.keeps.live, h'.keeps.vmas, fun j hj => ?_⟩, h'.mms, h'.bound, ?_, hlast, hnodup, hlive', hfresh, hareas⟩
    · rw [hlink, Function.update_of_ne]
      · exact h'.keeps.next j hj
      · rintro rfl
        rw [htf] at hj
        cases hj
    · rw [if_neg (Option.some_ne_none t), hlink]
      obtain ⟨m, h1, h2⟩ := onward_append.1 h'.onward
      obtain ⟨h2, -⟩ := h2
      refine onward_append.2 ⟨some c, onward_append.2 ⟨m, h1.congr fun x hx => ?_, h2, ?_⟩, rfl, ?_⟩
      · exact Function.update_of_ne (htail x hx) _ _
      · exact Function.update_self _ _ _
      · rw [Function.update_of_ne htc]
        exact hnext

/-- **The loop copies the whole list**, or is given up. -/
theorem copyVmas_copied {nodes : Nat → Option Nat} {head' : Option Nat} : ∀ {B A C : List Nat} {fuel : Nat} {s : State}
    {head tail : Option Nat}, Copied s₀ s A C head tail → Onward s₀.links.next B.head? B none → (∀ i ∈ B, s₀.live i = true) →
    B.length ≤ fuel → copyVmas nodes fuel s B.head? head tail = (some head', s') →
    ∃ C' tail', Copied s₀ s' (A ++ B) C' head' tail'
  | [], A, C, fuel, s, head, tail, hc, _, _, _, h => by
    have hnil : copyVmas nodes fuel s ([] : List Nat).head? head tail = (some head, s) := by
      cases fuel <;> rfl
    rw [hnil] at h
    cases h
    refine ⟨C, tail, ?_⟩
    rw [List.append_nil]
    exact hc
  | i :: B, A, C, 0, _, _, _, _, _, _, hle, _ => absurd hle (by simp)
  | i :: B, A, C, fuel + 1, s, head, tail, hc, ho, hlive, hle, h => by
    simp only [List.head?_cons, copyVmas] at h
    rcases ha : vmaAlloc s (nodes i) with ⟨_ | c, s₁⟩
    · rw [ha] at h
      cases h
    · have hi := hlive i List.mem_cons_self
      have hc' := hc.turn hi ha
      have hhead : s₀.links.next i = B.head? := ho.2.head_eq
      rw [ha] at h
      simp only at h
      rw [hc'.keeps.next i hi, hhead] at h
      have ho' : Onward s₀.links.next B.head? B none := hhead ▸ ho.2
      have hrec := copyVmas_copied hc' ho' (fun j hj => hlive j (List.mem_cons_of_mem i hj)) (Nat.le_of_succ_le_succ hle) h
      rw [List.append_assoc] at hrec
      exact hrec

/-- **The copies of a list** hold what its areas hold. -/
theorem copyVmas_areas (mm' : MmStruct) {nodes : Nat → Option Nat} {l : List Nat} {head : Option Nat} (hl : Listed s mm l)
    (hb : ∀ i, s.live i = true → i < s.bound) (h : copyVmas nodes s.bound s mm.mmap none none = (some head, s'))
    (hm : mm'.mmap = head) : s'.areas mm' = s.areas mm := by
  have hhead : mm.mmap = l.head? := hl.onward.head_eq
  have hlen : l.length ≤ s.bound := Dll.length_le_of_lt hl.nodup fun i hi => hb i (hl.live i hi)
  have hstart : Copied s s [] [] none none :=
    ⟨⟨fun _ h => h, fun _ _ => rfl, fun _ _ => rfl⟩, rfl, hb, rfl, rfl, List.nodup_nil, List.forall_mem_nil _,
      List.forall_mem_nil _, rfl⟩
  rw [hhead] at h
  obtain ⟨C, tail, hc⟩ := copyVmas_copied hstart (hhead ▸ hl.onward) hl.live hlen h
  have hC : s'.nodes mm' = C := by
    unfold State.nodes
    rw [hm]
    exact hc.onward.nodesFrom_eq (Dll.length_le_of_lt hc.nodup fun i hi => hc.bound i (hc.live i hi))
  unfold State.areas
  rw [hC, hc.areas, hl.nodes_eq hb]
  rfl

end Mm
end Pico
