/-!
# Act — actions on a state that leave events and may not return

An `Act ε σ α` runs on a state `σ`, leaves events `ε` in the order they happen, and either returns an `α` and a state or does
not return.  It is a lawful monad, so an imperative program reads as a `do` block and is rewritten by the monad laws.
-/
namespace Pico
namespace Lib

/-- **An action**: the events it leaves and, when it returns, its result and the state after it. -/
def Act (ε σ α : Type) : Type := σ → List ε × Option (α × σ)

namespace Act

variable {ε σ α β : Type} {e : ε} {s : σ}

protected def pure (a : α) : Act ε σ α := fun s => ([], some (a, s))

protected def bind (x : Act ε σ α) (f : α → Act ε σ β) : Act ε σ β := fun s =>
  match x s with
  | (ev, none) => (ev, none)
  | (ev, some (a, s)) => (ev ++ (f a s).1, (f a s).2)

instance : Monad (Act ε σ) where
  pure := Act.pure
  bind := Act.bind

/-- Leave an event. -/
def emit (e : ε) : Act ε σ Unit := fun s => ([e], some ((), s))

/-- Read a value off the state. -/
def reads (f : σ → α) : Act ε σ α := fun s => ([], some (f s, s))

/-- Change the state. -/
def modify (f : σ → σ) : Act ε σ Unit := fun s => ([], some ((), f s))

/-- The action that does not return. -/
def never : Act ε σ α := fun _ => ([], none)

theorem pure_apply (a : α) (s : σ) : (pure a : Act ε σ α) s = ([], some (a, s)) := rfl

theorem bind_none {x : Act ε σ α} {ev : List ε} (h : x s = (ev, none)) (f : α → Act ε σ β) : (x >>= f) s = (ev, none) := by
  change Act.bind x f s = _
  simp only [Act.bind, h]

theorem bind_some {x : Act ε σ α} {ev : List ε} {a : α} {s' : σ} (h : x s = (ev, some (a, s'))) (f : α → Act ε σ β) :
    (x >>= f) s = (ev ++ (f a s').1, (f a s').2) := by
  change Act.bind x f s = _
  simp only [Act.bind, h]

theorem map_some {x : Act ε σ α} {ev : List ε} {a : α} {s' : σ} (h : x s = (ev, some (a, s'))) (f : α → β) :
    (f <$> x) s = (ev, some (f a, s')) := by
  change Act.bind x (fun a => Act.pure (f a)) s = _
  simp only [Act.bind, h, Act.pure, List.append_nil]

instance : LawfulMonad (Act ε σ) := by
  refine LawfulMonad.mk' _ (fun x => funext fun s => ?_) (fun _ _ => rfl) (fun x f g => funext fun s => ?_)
  · change Act.bind x (fun a => Act.pure a) s = x s
    rcases h : x s with ⟨ev, _ | ⟨a, s'⟩⟩ <;> simp [Act.bind, Act.pure, h]
  · change Act.bind (Act.bind x f) g s = Act.bind x (fun a => Act.bind (f a) g) s
    rcases h : x s with ⟨ev, _ | ⟨a, s'⟩⟩
    · simp only [Act.bind, h]
    rcases h' : f a s' with ⟨ev', _ | ⟨b, s''⟩⟩ <;> simp [Act.bind, h, h']

/-- **The events of an action come first** when another one follows. -/
theorem prefix_bind (x : Act ε σ α) (f : α → Act ε σ β) (s : σ) : (x s).1 <+: ((x >>= f) s).1 := by
  rcases hx : x s with ⟨ev, _ | ⟨a, s'⟩⟩
  · exact ⟨[], by rw [bind_none hx, List.append_nil]⟩
  · rw [bind_some hx]
    exact List.prefix_append _ _

/-- An event of two actions in a row is one of the first, or one of the second where the first returns. -/
theorem mem_bind {x : Act ε σ α} {f : α → Act ε σ β} (h : e ∈ ((x >>= f) s).1) :
    e ∈ (x s).1 ∨ ∃ a s', e ∈ (f a s').1 := by
  rcases hx : x s with ⟨ev, _ | ⟨a, s'⟩⟩
  · rw [bind_none hx] at h
    exact Or.inl h
  · rw [bind_some hx] at h
    exact (List.mem_append.1 h).imp_right fun h => ⟨a, s', h⟩

/-- **The first event** the action leaves. -/
def first (x : Act ε σ α) (s : σ) : Option ε := (x s).1.head?

theorem first_bind {x : Act ε σ α} (h : x.first s = some e) (f : α → Act ε σ β) : first (x >>= f) s = some e := by
  obtain ⟨l, hl⟩ := x.prefix_bind f s
  unfold first at *
  rw [← hl, List.head?_append, h]
  rfl

end Act
end Lib
end Pico
