import Mathlib.Data.List.Basic
/-!
# Tiling — memory cut into blocks, each behind a header that says how long it is

Block `b` at offset `p` has its header in `[p, p + H)` and its payload in `[p + H, p + H + sz b)`; the next header follows.
`Tiles rd off bs fin` says that reading headers with `rd` from `off` meets exactly the blocks `bs` and stops at `fin`;
`AtPos bs p b` says that `b` is the block at offset `p` from the start of `bs`.  The edits of an allocator replace one
segment of the list by another of the same span (`Replaced`, `tiles_replace`, `AtPos.replace`) or append a block.
-/
namespace Pico
namespace Lib
namespace Tiling

variable {β : Type} (sz : β → Nat) (H : Nat)

/-- The bytes the blocks take, headers included. -/
def span : List β → Nat
  | [] => 0
  | b :: bs => H + sz b + span bs

/-- **The walk**: from `off`, header after header, the blocks `bs`, and then `fin`. -/
def Tiles (rd : Nat → β) : Nat → List β → Nat → Prop
  | off, [], fin => off = fin
  | off, b :: bs, fin => rd off = b ∧ Tiles rd (off + H + sz b) bs fin

/-- `b` is the block at offset `p`. -/
def AtPos (bs : List β) (p : Nat) (b : β) : Prop := ∃ pre post, bs = pre ++ b :: post ∧ p = span sz H pre

/-- `mid` are the consecutive blocks from offset `p`. -/
def SegAt (bs : List β) (p : Nat) (mid : List β) : Prop := ∃ pre post, bs = pre ++ mid ++ post ∧ p = span sz H pre

/-- The blocks `mid` at offset `p` have given way to `mid'`. -/
def Replaced (bs : List β) (p : Nat) (mid mid' bs' : List β) : Prop :=
  ∃ pre post, bs = pre ++ mid ++ post ∧ bs' = pre ++ mid' ++ post ∧ p = span sz H pre

@[simp] theorem span_nil : span sz H ([] : List β) = 0 := rfl
@[simp] theorem span_cons (b : β) (bs : List β) : span sz H (b :: bs) = H + sz b + span sz H bs := rfl

@[simp] theorem span_append : ∀ (xs ys : List β), span sz H (xs ++ ys) = span sz H xs + span sz H ys
  | [], ys => by simp
  | x :: xs, ys => by
    simp only [List.cons_append, span_cons, span_append xs ys]
    omega

variable {sz H}

theorem tiles_singleton {rd : Nat → β} {off : Nat} {b : β} (h : rd off = b) :
    Tiles sz H rd off [b] (off + span sz H [b]) :=
  ⟨h, by simp only [Tiles, span_cons, span_nil]; omega⟩

theorem tiles_pair {rd : Nat → β} {off : Nat} {b c : β} (hb : rd off = b) (hc : rd (off + H + sz b) = c) :
    Tiles sz H rd off [b, c] (off + span sz H [b, c]) :=
  ⟨hb, hc, by simp only [Tiles, span_cons, span_nil]; omega⟩

theorem Tiles.fin_eq {rd : Nat → β} : ∀ {bs : List β} {off fin : Nat}, Tiles sz H rd off bs fin →
    fin = off + span sz H bs
  | [], _, _, h => by simpa using h.symm
  | b :: bs, off, fin, h => by
    have := Tiles.fin_eq h.2
    simp only [span_cons]
    omega

theorem tiles_append {rd : Nat → β} : ∀ {xs ys : List β} {off fin : Nat},
    Tiles sz H rd off (xs ++ ys) fin ↔
      Tiles sz H rd off xs (off + span sz H xs) ∧ Tiles sz H rd (off + span sz H xs) ys fin
  | [], ys, off, fin => by simp [Tiles]
  | x :: xs, ys, off, fin => by
    have e : off + (H + sz x + span sz H xs) = off + H + sz x + span sz H xs := by omega
    have ih := @tiles_append rd xs ys (off + H + sz x) fin
    simp only [List.cons_append, Tiles, span_cons, e, ih]
    tauto

/-- **The walk reads headers only**: inside `[off, fin)`, each of them whole. -/
theorem Tiles.congr {rd rd' : Nat → β} : ∀ {bs : List β} {off fin : Nat}, Tiles sz H rd off bs fin →
    (∀ x, off ≤ x → x + H ≤ fin → rd' x = rd x) → Tiles sz H rd' off bs fin
  | [], _, _, h, _ => h
  | b :: bs, off, fin, h, hag => by
    have hf := Tiles.fin_eq h.2
    refine ⟨(hag off (Nat.le_refl _) (by omega)).trans h.1, Tiles.congr h.2 (fun x hx => hag x (by omega))⟩

/-- **An edit inside one segment**: the new headers walk the new segment, the span stays, the rest is untouched. -/
theorem tiles_replace {rd rd' : Nat → β} {pre mid mid' post : List β} {off fin : Nat}
    (h : Tiles sz H rd off (pre ++ mid ++ post) fin) (hspan : span sz H mid' = span sz H mid)
    (hlow : ∀ x, off ≤ x → x + H ≤ off + span sz H pre → rd' x = rd x)
    (hmid : Tiles sz H rd' (off + span sz H pre) mid' (off + span sz H pre + span sz H mid))
    (hhigh : ∀ x, off + span sz H pre + span sz H mid ≤ x → rd' x = rd x) :
    Tiles sz H rd' off (pre ++ mid' ++ post) fin := by
  rw [List.append_assoc, tiles_append] at h
  obtain ⟨hpre, hrest⟩ := h
  rw [tiles_append] at hrest
  rw [List.append_assoc, tiles_append]
  refine ⟨hpre.congr hlow, tiles_append.2 ⟨?_, ?_⟩⟩
  · rw [hspan]
    exact hmid
  · rw [hspan]
    exact hrest.2.congr (fun x hx _ => hhigh x hx)

/-! ## Where a block lies -/

theorem AtPos.cons_iff {c b : β} {bs : List β} {p : Nat} :
    AtPos sz H (c :: bs) p b ↔ (p = 0 ∧ b = c) ∨ ∃ q, AtPos sz H bs q b ∧ p = H + sz c + q := by
  constructor
  · rintro ⟨pre, post, hbs, hp⟩
    cases pre with
    | nil =>
      simp only [List.nil_append, List.cons.injEq] at hbs
      exact .inl ⟨by simpa using hp, hbs.1.symm⟩
    | cons x pre =>
      simp only [List.cons_append, List.cons.injEq] at hbs
      obtain ⟨rfl, rfl⟩ := hbs
      exact .inr ⟨_, ⟨pre, post, rfl, rfl⟩, by simpa using hp⟩
  · rintro (⟨rfl, rfl⟩ | ⟨q, ⟨pre, post, rfl, rfl⟩, rfl⟩)
    · exact ⟨[], bs, rfl, rfl⟩
    · exact ⟨c :: pre, post, rfl, rfl⟩

theorem not_atPos_nil {p : Nat} {b : β} : ¬ AtPos sz H [] p b := by
  rintro ⟨pre, post, h, -⟩
  simp at h

theorem AtPos.append_iff : ∀ {xs ys : List β} {p : Nat} {b : β},
    AtPos sz H (xs ++ ys) p b ↔ AtPos sz H xs p b ∨ ∃ q, AtPos sz H ys q b ∧ p = span sz H xs + q
  | [], ys, p, b => by simp [not_atPos_nil]
  | x :: xs, ys, p, b => by
    rw [List.cons_append, AtPos.cons_iff, AtPos.cons_iff]
    constructor
    · rintro (h | ⟨q, hq, rfl⟩)
      · exact .inl (.inl h)
      · rcases AtPos.append_iff.1 hq with h | ⟨r, hr, rfl⟩
        · exact .inl (.inr ⟨q, h, rfl⟩)
        · exact .inr ⟨r, hr, by simp only [span_cons]; omega⟩
    · rintro ((h | ⟨q, hq, rfl⟩) | ⟨r, hr, rfl⟩)
      · exact .inl h
      · exact .inr ⟨q, AtPos.append_iff.2 (.inl hq), rfl⟩
      · exact .inr ⟨span sz H xs + r, AtPos.append_iff.2 (.inr ⟨r, hr, rfl⟩), by simp only [span_cons]; omega⟩

theorem AtPos.mem {bs : List β} {p : Nat} {b : β} (h : AtPos sz H bs p b) : b ∈ bs := by
  obtain ⟨pre, post, rfl, -⟩ := h
  simp

theorem AtPos.le_span {bs : List β} {p : Nat} {b : β} (h : AtPos sz H bs p b) : p + H + sz b ≤ span sz H bs := by
  obtain ⟨pre, post, rfl, rfl⟩ := h
  simp only [span_append, span_cons]
  omega

theorem AtPos.segAt {bs : List β} {p : Nat} {b : β} (h : AtPos sz H bs p b) : SegAt sz H bs p [b] := by
  obtain ⟨pre, post, rfl, rfl⟩ := h
  exact ⟨pre, post, by simp, rfl⟩

/-- **A block that does not reach the end has a right neighbour.** -/
theorem AtPos.segAt_next {bs : List β} {p : Nat} {b : β} (h : AtPos sz H bs p b)
    (hne : p + (H + sz b) ≠ span sz H bs) :
    ∃ d, SegAt sz H bs p [b, d] ∧ AtPos sz H bs (p + (H + sz b)) d := by
  obtain ⟨pre, post, rfl, rfl⟩ := h
  cases post with
  | nil =>
    simp only [span_append, span_cons, span_nil] at hne
    omega
  | cons d post =>
    refine ⟨d, ⟨pre, post, by simp, rfl⟩, ⟨pre ++ [b], post, by simp, ?_⟩⟩
    simp

theorem SegAt.atPos {bs mid : List β} {p q : Nat} {b : β} (h : SegAt sz H bs p mid) (hb : AtPos sz H mid q b) :
    AtPos sz H bs (p + q) b := by
  obtain ⟨pre, post, rfl, rfl⟩ := h
  rw [List.append_assoc]
  exact AtPos.append_iff.2 (.inr ⟨q, AtPos.append_iff.2 (.inl hb), rfl⟩)

theorem Replaced.segAt {bs mid mid' bs' : List β} {p : Nat} (h : Replaced sz H bs p mid mid' bs') :
    SegAt sz H bs' p mid' := by
  obtain ⟨pre, post, -, rfl, rfl⟩ := h
  exact ⟨pre, post, rfl, rfl⟩

/-- A segment replaced by itself. -/
theorem Replaced.eq {bs mid bs' : List β} {p : Nat} (h : Replaced sz H bs p mid mid bs') : bs' = bs := by
  obtain ⟨pre, post, rfl, rfl, -⟩ := h
  rfl

theorem atPos_middle (pre post : List β) (b : β) : AtPos sz H (pre ++ b :: post) (span sz H pre) b :=
  ⟨pre, post, rfl, rfl⟩

/-- **The header the walk reads at a block's offset is the block.** -/
theorem AtPos.read {rd : Nat → β} {bs : List β} {fin p : Nat} {b : β} (h : AtPos sz H bs p b)
    (ht : Tiles sz H rd 0 bs fin) : rd p = b := by
  obtain ⟨pre, post, rfl, rfl⟩ := h
  have := (tiles_append.1 ht).2
  rw [Nat.zero_add] at this
  exact this.1

/-- **Two blocks are the same or apart**, headers included. -/
theorem AtPos.apart : ∀ {bs : List β} {p q : Nat} {b c : β}, AtPos sz H bs p b → AtPos sz H bs q c →
    (p = q ∧ b = c) ∨ p + H + sz b ≤ q ∨ q + H + sz c ≤ p
  | [], _, _, _, _, h, _ => absurd h not_atPos_nil
  | x :: bs, p, q, b, c, hb, hc => by
    rcases AtPos.cons_iff.1 hb with ⟨rfl, rfl⟩ | ⟨p', hp', rfl⟩ <;>
      rcases AtPos.cons_iff.1 hc with ⟨rfl, rfl⟩ | ⟨q', hq', rfl⟩
    · exact .inl ⟨rfl, rfl⟩
    · exact .inr (.inl (by omega))
    · exact .inr (.inr (by omega))
    · rcases AtPos.apart hp' hq' with ⟨rfl, rfl⟩ | h | h
      · exact .inl ⟨rfl, rfl⟩
      · exact .inr (.inl (by omega))
      · exact .inr (.inr (by omega))

theorem atPos_singleton (b : β) : AtPos sz H [b] 0 b := atPos_middle [] [] b

/-- **A block outside the replaced segment keeps its offset.** -/
theorem AtPos.replace (hH : 0 < H) {pre mid mid' post : List β} {p : Nat} {b : β}
    (h : AtPos sz H (pre ++ mid ++ post) p b) (hspan : span sz H mid' = span sz H mid)
    (hout : p < span sz H pre ∨ span sz H pre + span sz H mid ≤ p) :
    AtPos sz H (pre ++ mid' ++ post) p b := by
  rw [List.append_assoc, AtPos.append_iff] at h ⊢
  rcases h with h | ⟨q, hq, rfl⟩
  · exact .inl h
  · refine .inr ⟨q, ?_, rfl⟩
    rw [AtPos.append_iff] at hq ⊢
    rcases hq with hq | ⟨r, hr, rfl⟩
    · have := hq.le_span
      omega
    · exact .inr ⟨r, hr, by rw [hspan]⟩

end Tiling
end Lib
end Pico
