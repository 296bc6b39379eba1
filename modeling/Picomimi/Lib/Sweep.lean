/-!
# Sweep — loops that edit cells, each turn where it applies

A turn of the loop edits the cells it hits and keeps the others.  Where an edit made twice is the edit made once, the loop
edits each cell that some turn hits once, in whatever order the turns come and however many hit it (`foldl_swept`).
-/
namespace Pico
namespace Lib

variable {σ α ι β : Type} {get : σ → ι → β} {f : σ → α → σ} {hit : α → ι → Prop} {edit : ι → β → β} {I : σ → Prop}
  {D : ι → Prop}

/-- **The cells in `D` that are hit are edited, the others kept.** -/
structure Swept (get : σ → ι → β) (edit : ι → β → β) (D hit : ι → Prop) (s s' : σ) : Prop where
  edited : ∀ i, D i → hit i → get s' i = edit i (get s i)
  kept : ∀ i, D i → ¬hit i → get s' i = get s i

theorem Swept.refl (s : σ) : Swept get edit D (fun _ => False) s s := ⟨fun _ _ h => h.elim, fun _ _ _ => rfl⟩

/-- Two sweeps are one. -/
theorem Swept.trans {p q : ι → Prop} {s s' s'' : σ} (hedit : ∀ i b, edit i (edit i b) = edit i b)
    (h : Swept get edit D p s s') (h' : Swept get edit D q s' s'') : Swept get edit D (fun i => p i ∨ q i) s s'' := by
  refine ⟨fun i hi hpq => ?_, fun i hi hpq => ?_⟩
  · by_cases hp : p i <;> by_cases hq : q i
    · rw [h'.edited i hi hq, h.edited i hi hp, hedit]
    · rw [h'.kept i hi hq, h.edited i hi hp]
    · rw [h'.edited i hi hq, h.kept i hi hp]
    · exact absurd hpq (not_or.2 ⟨hp, hq⟩)
  · obtain ⟨hp, hq⟩ := not_or.1 hpq
    rw [h'.kept i hi hq, h.kept i hi hp]

theorem Swept.congr {p q : ι → Prop} {s s' : σ} (h : Swept get edit D p s s') (hpq : ∀ i, D i → (q i ↔ p i)) :
    Swept get edit D q s s' :=
  ⟨fun i hi hq => h.edited i hi ((hpq i hi).1 hq), fun i hi hq => h.kept i hi fun hp => hq ((hpq i hi).2 hp)⟩

/-- **A loop of such turns**, which keep an invariant. -/
theorem foldl_swept (hedit : ∀ i b, edit i (edit i b) = edit i b) : ∀ (l : List α),
    (∀ a ∈ l, ∀ s, I s → I (f s a) ∧ Swept get edit D (hit a) s (f s a)) → ∀ s, I s →
      I (l.foldl f s) ∧ Swept get edit D (fun i => ∃ a ∈ l, hit a i) s (l.foldl f s)
  | [], _, s, hs => ⟨hs, (Swept.refl s).congr fun _ _ => by simp⟩
  | a :: l, hstep, s, hs => by
    obtain ⟨h1, h2⟩ := hstep a List.mem_cons_self s hs
    obtain ⟨h3, h4⟩ := foldl_swept hedit l (fun b hb => hstep b (List.mem_cons_of_mem a hb)) (f s a) h1
    exact ⟨h3, (h2.trans hedit h4).congr fun _ _ => by simp⟩

end Lib
end Pico
