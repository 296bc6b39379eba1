/-!
# Walk — walks in a labelled graph whose edges may be missing

A walk follows labels from a vertex; where there is no edge of that label it stops and says which edge it missed.  `asked`
is what the walk reads of the graph: a graph with the same answers has the same walk (`walk_congr`), and one that lost an
edge has it exactly where that edge was not asked for (`walk_cut`).
-/
namespace Pico
namespace Lib

variable {V L : Type} {edge edge' : V → L → Option V} {v w : V} {l : L} {q : V × L} {ls ms : List L}

/-- **The walk**: the vertex the labels lead to, or the edge that is missing. -/
def walk (edge : V → L → Option V) : V → List L → Except (V × L) V
  | v, [] => .ok v
  | v, l :: ls =>
    match edge v l with
    | some w => walk edge w ls
    | none => .error (v, l)

/-- The edges a walk asks for. -/
def asked (edge : V → L → Option V) : V → List L → List (V × L)
  | _, [] => []
  | v, l :: ls => (v, l) ::
    match edge v l with
    | some w => asked edge w ls
    | none => []

theorem walk_cons_some (h : edge v l = some w) : walk edge v (l :: ls) = walk edge w ls := by simp only [walk, h]

theorem walk_cons_none (h : edge v l = none) : walk edge v (l :: ls) = .error (v, l) := by simp only [walk, h]

theorem asked_cons_some (h : edge v l = some w) : asked edge v (l :: ls) = (v, l) :: asked edge w ls := by
  simp only [asked, h]

theorem asked_cons_none (h : edge v l = none) : asked edge v (l :: ls) = [(v, l)] := by simp only [asked, h]

/-- A walk goes on from where its first part ends. -/
theorem walk_append_ok : ∀ (ls : List L) {v : V}, walk edge v ls = .ok w → walk edge v (ls ++ ms) = walk edge w ms
  | [], v, h => by
    cases h
    rfl
  | l :: ls, v, h => by
    cases he : edge v l with
    | none =>
      rw [walk_cons_none he] at h
      cases h
    | some u =>
      rw [walk_cons_some he] at h
      rw [List.cons_append, walk_cons_some he]
      exact walk_append_ok ls h

theorem walk_append_error : ∀ (ls : List L) {v : V}, walk edge v ls = .error q → walk edge v (ls ++ ms) = .error q
  | [], v, h => by cases h
  | l :: ls, v, h => by
    cases he : edge v l with
    | none =>
      rw [walk_cons_none he] at h
      rw [List.cons_append, walk_cons_none he, h]
    | some u =>
      rw [walk_cons_some he] at h
      rw [List.cons_append, walk_cons_some he]
      exact walk_append_error ls h

/-- The last step of a walk. -/
theorem walk_snoc_some {u : V} (h : walk edge v ls = .ok w) (he : edge w l = some u) :
    walk edge v (ls ++ [l]) = .ok u := by
  rw [walk_append_ok ls h, walk_cons_some he]
  rfl

theorem walk_snoc_ok {u : V} (h : walk edge v (ls ++ [l]) = .ok u) : ∃ w, walk edge v ls = .ok w ∧ edge w l = some u := by
  cases hw : walk edge v ls with
  | error q =>
    rw [walk_append_error ls hw] at h
    cases h
  | ok w =>
    rw [walk_append_ok ls hw] at h
    cases he : edge w l with
    | none =>
      rw [walk_cons_none he] at h
      cases h
    | some x =>
      rw [walk_cons_some he] at h
      cases h
      exact ⟨w, rfl, he⟩

theorem walk_snoc_none (h : walk edge v ls = .ok w) (he : edge w l = none) :
    walk edge v (ls ++ [l]) = .error (w, l) := by
  rw [walk_append_ok ls h, walk_cons_none he]

/-- **A walk reads only the edges it asks for.** -/
theorem walk_congr : ∀ (ls : List L) {v : V}, (∀ q ∈ asked edge v ls, edge' q.1 q.2 = edge q.1 q.2) →
    walk edge' v ls = walk edge v ls
  | [], _, _ => rfl
  | l :: ls, v, h => by
    cases he : edge v l with
    | none =>
      rw [asked_cons_none he] at h
      rw [walk_cons_none he, walk_cons_none ((h _ (List.mem_singleton_self _)).trans he)]
    | some u =>
      rw [asked_cons_some he] at h
      rw [walk_cons_some he, walk_cons_some ((h _ List.mem_cons_self).trans he)]
      exact walk_congr ls fun q hq => h q (List.mem_cons_of_mem _ hq)

theorem asked_congr : ∀ (ls : List L) {v : V}, (∀ q ∈ asked edge v ls, edge' q.1 q.2 = edge q.1 q.2) →
    asked edge' v ls = asked edge v ls
  | [], _, _ => rfl
  | l :: ls, v, h => by
    cases he : edge v l with
    | none =>
      rw [asked_cons_none he] at h
      rw [asked_cons_none he, asked_cons_none ((h _ (List.mem_singleton_self _)).trans he)]
    | some u =>
      rw [asked_cons_some he] at h
      rw [asked_cons_some he, asked_cons_some ((h _ List.mem_cons_self).trans he),
        asked_congr ls fun q hq => h q (List.mem_cons_of_mem _ hq)]

/-- A walk that arrives has every edge it asked for. -/
theorem edge_ne_none_of_ok : ∀ (ls : List L) {v : V}, walk edge v ls = .ok w →
    ∀ q ∈ asked edge v ls, edge q.1 q.2 ≠ none
  | [], _, _, q, hq => by cases hq
  | l :: ls, v, h, q, hq => by
    cases he : edge v l with
    | none =>
      rw [walk_cons_none he] at h
      cases h
    | some u =>
      rw [walk_cons_some he] at h
      rw [asked_cons_some he, List.mem_cons] at hq
      rcases hq with rfl | hq
      · simp [he]
      · exact edge_ne_none_of_ok ls h q hq

/-- **A walk that stops asked for the edge it missed.** -/
theorem missed_of_error : ∀ (ls : List L) {v : V}, walk edge v ls = .error q →
    q ∈ asked edge v ls ∧ edge q.1 q.2 = none
  | [], _, h => by cases h
  | l :: ls, v, h => by
    cases he : edge v l with
    | none =>
      rw [walk_cons_none he] at h
      cases h
      rw [asked_cons_none he]
      exact ⟨List.mem_singleton_self _, he⟩
    | some u =>
      rw [walk_cons_some he] at h
      rw [asked_cons_some he]
      obtain ⟨hq, hn⟩ := missed_of_error ls h
      exact ⟨List.mem_cons_of_mem _ hq, hn⟩

/-- **Without the edge `q`**, a walk that asked for it stops there. -/
theorem walk_cut (hq : edge' q.1 q.2 = none) (h : ∀ r : V × L, r ≠ q → edge' r.1 r.2 = edge r.1 r.2) :
    ∀ (ls : List L) {v : V}, q ∈ asked edge v ls → walk edge' v ls = .error q
  | [], _, hm => by cases hm
  | l :: ls, v, hm => by
    by_cases hvl : (v, l) = q
    · rw [← hvl] at hq
      rw [← hvl, walk_cons_none hq]
    · have hsame := h (v, l) hvl
      cases he : edge v l with
      | none =>
        rw [asked_cons_none he, List.mem_singleton] at hm
        exact absurd hm.symm hvl
      | some u =>
        rw [asked_cons_some he, List.mem_cons] at hm
        rw [walk_cons_some (hsame.trans he)]
        exact walk_cut hq h ls (hm.resolve_left (Ne.symm hvl))

/-- **What every edge keeps holds wherever a walk stands.** -/
theorem walk_invariant {P : V → Prop} (hstep : ∀ v l w, P v → edge v l = some w → P w) :
    ∀ (ls : List L) {v : V}, P v → walk edge v ls = .ok w → P w
  | [], v, hv, h => by
    cases h
    exact hv
  | l :: ls, v, hv, h => by
    cases he : edge v l with
    | none =>
      rw [walk_cons_none he] at h
      cases h
    | some u =>
      rw [walk_cons_some he] at h
      exact walk_invariant hstep ls (hstep v l u hv he) h

theorem asked_invariant {P : V → Prop} (hstep : ∀ v l w, P v → edge v l = some w → P w) :
    ∀ (ls : List L) {v : V}, P v → ∀ q ∈ asked edge v ls, P q.1
  | [], _, _, q, hq => by cases hq
  | l :: ls, v, hv, q, hq => by
    cases he : edge v l with
    | none =>
      rw [asked_cons_none he, List.mem_singleton] at hq
      rw [hq]
      exact hv
    | some u =>
      rw [asked_cons_some he, List.mem_cons] at hq
      rcases hq with rfl | hq
      · exact hv
      · exact asked_invariant hstep ls (hstep v l u hv he) q hq

end Lib
end Pico
