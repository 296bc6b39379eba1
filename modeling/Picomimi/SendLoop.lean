import Picomimi.Transfer
/-!
# SendLoop — what `sys_sendfile` reads, and what it puts out

A chunk is read into a buffer, and what the sink takes of it goes out: on the console, for descriptors 1 and 2, or
through the write operation of the file.  `sendLoop_sends` says of the whole loop, for any source and any sink, that what
went out is the beginning of what was read from the source, in order, and as much as the total says.
-/
namespace Pico
namespace Transfer

variable {σ : Type} (io : Fops σ)

/-! ## What is read, and what goes out -/

/-- The descriptor is standard output or standard error. -/
def Standard (fd : Int) : Prop := fd = 1 ∨ fd = 2

/-- The number of bytes a call of `vfs_write` took. -/
def tookOf : Except Int Nat → Nat
  | .error _ => 0
  | .ok n => n

def Sent.took (d : Sent) : Nat := tookOf d.res

def Sent.data (d : Sent) : List UInt8 := d.buf.take d.took

/-- What the write operation took, in order. -/
def accepted (ds : List Sent) : List UInt8 := ds.flatMap Sent.data

/-- What the read operation gave, in order. -/
def taken (gs : List Got) : List UInt8 := gs.flatMap Got.data

/-- What went out between two states: on the console, for a standard descriptor, or into the file. -/
inductive PutOut (outFd : Int) (out : Nat) (s t : Sys σ) (w : List UInt8) : Prop
  | console : Standard outFd → t.console = s.console ++ w → t.sent = s.sent → PutOut outFd out s t w
  | file (new : List Sent) : ¬Standard outFd → t.console = s.console → t.sent = s.sent ++ new →
      (∀ d ∈ new, d.file = out) → accepted new = w → PutOut outFd out s t w

/-- The operation moves the position by as much as it reads. -/
def Seekable (op : Nat) : Prop :=
  ∀ read, io.read op = some read → ∀ file dev count pos,
    (read file dev count pos).2.1 = pos + (bytesOf (ofRead (read file dev count pos).1)).length

/-- Where the next transfer goes on: at `*offset`, or the position of the file. -/
def reported (offset : Option Nat) (t : Sys σ) (inp : Nat) : Nat := offset.getD (t.file inp).fPos

/-- The file's write operation, if `vfs_write` calls it, fails. -/
def Fails (s : Sys σ) (f : Nat) (buf : List UInt8) : Prop :=
  (s.file f).fMode &&& fmodeWrite ≠ 0 ∧ ∃ op e, io.write (s.file f).fOp = some op ∧
    (op (s.file f) s.dev buf (s.file f).fPos).1 = .error e

/-- The sink takes these bytes: something at every call. -/
def Takes (outFd : Int) (out : Nat) : Nat → List UInt8 → Sys σ → Prop
  | 0, _, _ => True
  | fuel + 1, rest, s =>
    rest = [] ∨ Standard outFd ∨
      ∃ n, 0 < n ∧ (writeHere io s out rest).1 = .ok n ∧ Takes outFd out fuel (rest.drop n) (writeHere io s out rest).2

/-- **The sink takes every chunk that is read.** -/
def KeepsUp (outFd : Int) (out inp : Nat) : Nat → Nat → Nat → Nat → Sys σ → Prop
  | 0, _, _, _, _ => True
  | fuel + 1, count, pos, total, s =>
    total < count → ∀ l p t, vfsRead io s inp (min (count - total) bounce) pos = (.ok l, p, t) → l ≠ [] →
      Takes io outFd out l.length l t ∧
      KeepsUp outFd out inp fuel count p (total + l.length) (sendChunk io outFd out l.length l t).2

/-! ## Single calls -/

variable {io : Fops σ} {s t u : Sys σ} {k f out inp n : Nat} {outFd inFd : Int} {buf : List UInt8}

/-- A read writes nothing. -/
theorem vfsRead_same (io : Fops σ) (s : Sys σ) (f count pos : Nat) :
    (vfsRead io s f count pos).2.2.console = s.console ∧ (vfsRead io s f count pos).2.2.sent = s.sent := by
  unfold vfsRead
  split
  · exact ⟨rfl, rfl⟩
  · split <;> exact ⟨rfl, rfl⟩

/-- A write is at most one call of the operation; without one it is an error. -/
theorem writeHere_cases (io : Fops σ) (s : Sys σ) (f : Nat) (buf : List UInt8) :
    ((∃ e < 0, (writeHere io s f buf).1 = .error e) ∧ (writeHere io s f buf).2.sent = s.sent ∧ ¬Fails io s f buf) ∨
    ∃ op, io.write (s.file f).fOp = some op ∧ (s.file f).fMode &&& fmodeWrite ≠ 0 ∧
      (writeHere io s f buf).1 = ofWrite (op (s.file f) s.dev buf (s.file f).fPos).1 ∧
      (writeHere io s f buf).2.sent =
        s.sent ++ [⟨f, buf, (s.file f).fPos, ofWrite (op (s.file f) s.dev buf (s.file f).fPos).1⟩] := by
  unfold writeHere vfsWrite
  cases hop : io.write (s.file f).fOp with
  | none =>
    refine .inl ⟨⟨_, by decide, rfl⟩, rfl, ?_⟩
    rintro ⟨-, op, e, h, -⟩
    exact nomatch hop.symm.trans h
  | some op =>
    by_cases hm : (s.file f).fMode &&& fmodeWrite = 0
    · simp only [if_pos hm]
      exact .inl ⟨⟨_, by decide, rfl⟩, rfl, fun h => h.1 hm⟩
    · simp only [if_neg hm]
      exact .inr ⟨op, rfl, hm, rfl, rfl⟩

theorem writeHere_console (io : Fops σ) (s : Sys σ) (f : Nat) (buf : List UInt8) :
    (writeHere io s f buf).2.console = s.console := by
  unfold writeHere vfsWrite
  split
  · rfl
  · split <;> rfl

theorem writeHere_ok (h : (writeHere io s f buf).1 = .ok n) :
    n ≤ buf.length ∧ ∃ pos, (writeHere io s f buf).2.sent = s.sent ++ [⟨f, buf, pos, .ok n⟩] := by
  rcases writeHere_cases io s f buf with ⟨⟨e, -, he⟩, -, -⟩ | ⟨op, -, -, hr, hs⟩
  · cases h.symm.trans he
  · rw [h] at hr
    rw [← hr] at hs
    refine ⟨?_, _, hs⟩
    cases hx : (op (s.file f) s.dev buf (s.file f).fPos).1 with
    | error e =>
      rw [hx] at hr
      cases hr
    | ok x =>
      rw [hx] at hr
      injection hr with hn
      exact hn ▸ x.2

theorem writeHere_error {e : Int} (h : (writeHere io s f buf).1 = .error e) :
    e < 0 ∧ ∃ new, (writeHere io s f buf).2.sent = s.sent ++ new ∧ ∀ d ∈ new, d.file = f ∧ d.took = 0 := by
  rcases writeHere_cases io s f buf with ⟨⟨e', he', hw⟩, hs, -⟩ | ⟨op, -, -, hr, hs⟩
  · obtain rfl := Except.error.inj (h.symm.trans hw)
    exact ⟨he', [], by rw [hs, List.append_nil], by simp⟩
  · rw [h] at hr
    rw [← hr] at hs
    refine ⟨?_, _, hs, by simp [Sent.took, tookOf]⟩
    cases hx : (op (s.file f) s.dev buf (s.file f).fPos).1 with
    | error x =>
      rw [hx] at hr
      injection hr with hn
      exact hn ▸ x.2
    | ok x =>
      rw [hx] at hr
      cases hr

theorem taken_append (a b : List Got) : taken (a ++ b) = taken a ++ taken b := List.flatMap_append

theorem PutOut.of_same (hc : t.console = s.console) (hs : t.sent = s.sent) : PutOut outFd out s t [] := by
  by_cases h : Standard outFd
  · exact .console h (hc.trans (List.append_nil _).symm) hs
  · exact .file [] h hc (hs.trans (List.append_nil _).symm) (by simp) rfl

theorem PutOut.refl (outFd : Int) (out : Nat) (s : Sys σ) : PutOut outFd out s s [] := .of_same rfl rfl

theorem PutOut.trans {w v : List UInt8} (h1 : PutOut outFd out s t w) (h2 : PutOut outFd out t u v) :
    PutOut outFd out s u (w ++ v) := by
  cases h1 with
  | console hfd hc hs =>
    cases h2 with
    | console _ hc' hs' => exact .console hfd (by rw [hc', hc, List.append_assoc]) (hs'.trans hs)
    | file _ hn => exact absurd hfd hn
  | file new hn hc hs hf hw =>
    cases h2 with
    | console hfd => exact absurd hfd hn
    | file new' _ hc' hs' hf' hw' =>
      refine .file (new ++ new') hn (hc'.trans hc) (by rw [hs', hs, List.append_assoc]) (fun d hd => ?_) ?_
      · exact (List.mem_append.1 hd).elim (hf d) (hf' d)
      · rw [← hw, ← hw', accepted, List.flatMap_append]
        rfl

theorem PutOut.congr {w : List UInt8} (h : PutOut outFd out s t w) (hc : u.console = t.console) (hs : u.sent = t.sent) :
    PutOut outFd out s u w := by
  cases h with
  | console hfd h1 h2 => exact .console hfd (hc.trans h1) (hs.trans h2)
  | file new hn h1 h2 h3 h4 => exact .file new hn (hc.trans h1) (hs.trans h2) h3 h4

theorem PutOut.logged {w : List UInt8} (h : PutOut outFd out s t w) : ∃ new, t.sent = s.sent ++ new := by
  cases h with
  | console _ _ hs => exact ⟨[], hs.trans (List.append_nil _).symm⟩
  | file new _ _ hs => exact ⟨new, hs⟩

/-- A write puts out what it took. -/
theorem writeHere_putOut (h : ¬Standard outFd) (io : Fops σ) (s : Sys σ) (f : Nat) (buf : List UInt8) :
    PutOut outFd f s (writeHere io s f buf).2 (buf.take (tookOf (writeHere io s f buf).1)) ∧
    tookOf (writeHere io s f buf).1 ≤ buf.length := by
  cases hw : (writeHere io s f buf).1 with
  | error e =>
    obtain ⟨-, new, hs, hnew⟩ := writeHere_error hw
    refine ⟨.file new h (writeHere_console io s f buf) hs (fun d hd => (hnew d hd).1) ?_, Nat.zero_le _⟩
    exact List.flatMap_eq_nil_iff.2 fun d hd => by rw [Sent.data, (hnew d hd).2, List.take_zero]
  | ok n =>
    obtain ⟨hn, pos, hs⟩ := writeHere_ok hw
    exact ⟨.file _ h (writeHere_console io s f buf) hs (by simp) (List.append_nil _), hn⟩

/-! ## `sys_sendfile` -/

/-- **One chunk**: what it puts out is the beginning of it, and all of it when the sink takes it. -/
theorem sendChunk_spec (io : Fops σ) (outFd : Int) (out : Nat) : ∀ (fuel : Nat) (rest : List UInt8) (s : Sys σ),
    rest.length ≤ fuel →
    PutOut outFd out s (sendChunk io outFd out fuel rest s).2 (rest.take (sendChunk io outFd out fuel rest s).1) ∧
    (sendChunk io outFd out fuel rest s).1 ≤ rest.length ∧
    ((sendChunk io outFd out fuel rest s).1 = rest.length ↔ Takes io outFd out fuel rest s)
  | 0, rest, s, h => by
    obtain rfl := List.length_eq_zero_iff.1 (Nat.le_zero.1 h)
    exact ⟨PutOut.refl outFd out s, Nat.le_refl _, iff_of_true rfl trivial⟩
  | fuel + 1, rest, s, h => by
    by_cases hr : rest = []
    · subst hr
      exact ⟨PutOut.refl outFd out s, Nat.le_refl _, iff_of_true rfl (.inl rfl)⟩
    by_cases hfd : Standard outFd
    · simp only [sendChunk, if_neg hr, if_pos (show outFd = 1 ∨ outFd = 2 from hfd), List.take_length]
      exact ⟨.console hfd rfl rfl, Nat.le_refl _, iff_of_true trivial (.inr (.inl hfd))⟩
    obtain ⟨hput, hle⟩ := writeHere_putOut hfd io s out rest
    have hpos : 0 < rest.length := List.length_pos_iff.2 hr
    have htakes : Takes io outFd out (fuel + 1) rest s ↔ ∃ n, 0 < n ∧ (writeHere io s out rest).1 = .ok n ∧
        Takes io outFd out fuel (rest.drop n) (writeHere io s out rest).2 := by
      simp only [Takes, hr, hfd, false_or]
    simp only [sendChunk, if_neg hr, if_neg (show ¬(outFd = 1 ∨ outFd = 2) from hfd), htakes]
    rcases hw : writeHere io s out rest with ⟨e | n, t⟩ <;> rw [hw] at hput hle
    · refine ⟨hput, Nat.zero_le _, iff_of_false (Nat.ne_of_lt hpos) ?_⟩
      rintro ⟨n, -, hn, -⟩
      cases hn
    · by_cases hn : n = 0
      · subst hn
        refine ⟨hput, Nat.zero_le _, iff_of_false (Nat.ne_of_lt hpos) ?_⟩
        rintro ⟨n, hn, he, -⟩
        exact absurd (Except.ok.inj he) (Nat.ne_of_lt hn)
      · simp only [if_neg hn]
        obtain ⟨ih1, ih2, ih3⟩ := sendChunk_spec io outFd out fuel (rest.drop n) t (by rw [List.length_drop]; omega)
        rw [List.length_drop] at ih2 ih3
        have hle : n ≤ rest.length := hle
        refine ⟨?_, by omega, ?_⟩
        · rw [List.take_add]
          exact hput.trans ih1
        · rw [show n + (sendChunk io outFd out fuel (rest.drop n) t).1 = rest.length ↔
            (sendChunk io outFd out fuel (rest.drop n) t).1 = rest.length - n by omega, ih3]
          constructor
          · exact fun hk => ⟨n, Nat.pos_of_ne_zero hn, rfl, hk⟩
          · rintro ⟨x, -, hx, hk⟩
            obtain rfl := Except.ok.inj hx
            exact hk

/-- A write reads nothing, and leaves the operations of every file as they are. -/
theorem writeHere_rest (io : Fops σ) (s : Sys σ) (f : Nat) (buf : List UInt8) :
    (writeHere io s f buf).2.got = s.got ∧ ∀ x, ((writeHere io s f buf).2.file x).fOp = (s.file x).fOp := by
  have hset : ∀ (t : Sys σ) (pos x : Nat), ((t.setPos f pos).file x).fOp = (t.file x).fOp := by
    intro t pos x
    by_cases hx : x = f
    · subst hx
      simp [Sys.setPos]
    · simp [Sys.setPos, hx]
  unfold writeHere vfsWrite
  split
  · exact ⟨rfl, hset _ _⟩
  · split <;> exact ⟨rfl, hset _ _⟩

theorem sendChunk_rest (io : Fops σ) (outFd : Int) (out : Nat) : ∀ (fuel : Nat) (rest : List UInt8) (s : Sys σ),
    (sendChunk io outFd out fuel rest s).2.got = s.got ∧
      ∀ x, ((sendChunk io outFd out fuel rest s).2.file x).fOp = (s.file x).fOp
  | 0, _, _ => ⟨rfl, fun _ => rfl⟩
  | fuel + 1, rest, s => by
    have hw := writeHere_rest io s out rest
    simp only [sendChunk]
    split
    · exact ⟨rfl, fun _ => rfl⟩
    · split
      · exact ⟨rfl, fun _ => rfl⟩
      · rcases hx : writeHere io s out rest with ⟨e | n, t⟩ <;> rw [hx] at hw
        · exact hw
        · dsimp only
          split
          · exact hw
          · obtain ⟨h1, h2⟩ := sendChunk_rest io outFd out fuel (rest.drop n) t
            exact ⟨h1.trans hw.1, fun x => (h2 x).trans (hw.2 x)⟩

theorem vfsRead_rest (io : Fops σ) (s : Sys σ) (f count pos : Nat) :
    (∃ new, (vfsRead io s f count pos).2.2.got = s.got ++ new ∧ (∀ g ∈ new, g.file = f) ∧
      taken new = bytesOf (vfsRead io s f count pos).1) ∧
    (∀ x, ((vfsRead io s f count pos).2.2.file x).fOp = (s.file x).fOp) ∧
    (Seekable io (s.file f).fOp →
      (vfsRead io s f count pos).2.1 = pos + (bytesOf (vfsRead io s f count pos).1).length) := by
  unfold vfsRead
  cases hop : io.read (s.file f).fOp with
  | none => exact ⟨⟨[], (List.append_nil _).symm, by simp, rfl⟩, fun _ => rfl, fun _ => rfl⟩
  | some op =>
    by_cases hm : (s.file f).fMode &&& fmodeRead = 0
    · dsimp only
      rw [if_pos hm]
      exact ⟨⟨[], (List.append_nil _).symm, by simp, rfl⟩, fun _ => rfl, fun _ => rfl⟩
    · dsimp only
      rw [if_neg hm]
      exact ⟨⟨_, rfl, by simp, List.append_nil _⟩, fun _ => rfl, fun h => h op hop _ _ _ _⟩

/-- What the loop reads (`got`) and puts out (`w`). -/
structure Sends (io : Fops σ) (outFd : Int) (out inp pos : Nat) (s : Sys σ) (r : Nat × Nat × Sys σ) (total : Nat)
    (got : List Got) (w : List UInt8) (kept : Prop) : Prop where
  reads : r.2.2.got = s.got ++ got
  source : ∀ g ∈ got, g.file = inp
  puts : PutOut outFd out s r.2.2 w
  total : r.1 = total + w.length
  begins : w <+: taken got
  kept : taken got = w ↔ kept
  pos : Seekable io (s.file inp).fOp → r.2.1 = pos + (taken got).length

theorem sendLoop_sends (io : Fops σ) (outFd : Int) (out inp : Nat) : ∀ (fuel count pos total : Nat) (s : Sys σ),
    ∃ got w, Sends io outFd out inp pos s (sendLoop io outFd out inp fuel count pos total s) total got w
      (KeepsUp io outFd out inp fuel count pos total s)
  | 0, _, _, _, s =>
    ⟨[], [], (List.append_nil _).symm, by simp, .refl _ _ _, rfl, List.prefix_rfl, iff_of_true rfl trivial, fun _ => rfl⟩
  | fuel + 1, count, pos, total, s => by
    simp only [sendLoop, KeepsUp]
    split
    case isFalse hc =>
      exact ⟨[], [], (List.append_nil _).symm, by simp, .refl _ _ _, rfl, List.prefix_rfl,
        iff_of_true rfl fun h => absurd h hc, fun _ => rfl⟩
    case isTrue hc =>
      obtain ⟨⟨new, hgot, hsrc, htaken⟩, hop, hpos⟩ := vfsRead_rest io s inp (min (count - total) bounce) pos
      have hsame := vfsRead_same io s inp (min (count - total) bounce) pos
      rcases hv : vfsRead io s inp (min (count - total) bounce) pos with ⟨e | l, p, t⟩ <;>
        rw [hv] at hgot htaken hop hpos hsame
      · refine ⟨new, [], hgot, hsrc, .of_same hsame.1 hsame.2, rfl, List.nil_prefix, iff_of_true htaken ?_, ?_⟩
        · rintro - l p t ⟨⟩
        · exact fun h => by rw [htaken]; exact hpos h
      by_cases hl : l = []
      · subst hl
        refine ⟨new, [], hgot, hsrc, .of_same hsame.1 hsame.2, rfl, List.nil_prefix, iff_of_true htaken ?_, ?_⟩
        · rintro - l p t ⟨⟩ hne
          exact absurd rfl hne
        · exact fun h => by rw [htaken]; exact hpos h
      obtain ⟨hput, hle, hiff⟩ := sendChunk_spec io outFd out l.length l t (Nat.le_refl _)
      obtain ⟨hcgot, hcop⟩ := sendChunk_rest io outFd out l.length l t
      have hput := (PutOut.of_same hsame.1 hsame.2).trans hput
      have htaken : taken new = l := htaken
      simp only [if_neg hl]
      split
      case isTrue hlt =>
        refine ⟨new, _, hcgot.trans hgot, hsrc, hput, ?_, ?_, iff_of_false ?_ ?_, fun h => by rw [htaken]; exact hpos h⟩
        · rw [List.nil_append, List.length_take, Nat.min_eq_left hle]
        · rw [htaken]
          exact List.take_prefix _ _
        · intro h
          have := congrArg List.length (htaken.symm.trans h)
          rw [List.nil_append, List.length_take] at this
          omega
        · intro h
          exact absurd (hiff.2 (h hc l p t rfl hl).1) (Nat.ne_of_lt hlt)
      case isFalse hge =>
        have hfull : (sendChunk io outFd out l.length l t).1 = l.length := by omega
        rw [hfull, List.take_length, List.nil_append] at hput
        obtain ⟨got, w, hs⟩ := sendLoop_sends io outFd out inp fuel count p
          (total + (sendChunk io outFd out l.length l t).1) (sendChunk io outFd out l.length l t).2
        refine ⟨new ++ got, l ++ w, ?_, fun g hg => (List.mem_append.1 hg).elim (hsrc g) (hs.source g),
          hput.trans hs.puts, ?_, ?_, ?_, fun h => ?_⟩
        · rw [hs.reads, hcgot, hgot, List.append_assoc]
        · rw [hs.total, hfull, List.length_append, Nat.add_assoc]
        · rw [taken_append, htaken]
          exact (List.prefix_append_right_inj _).2 hs.begins
        · rw [taken_append, htaken, List.append_cancel_left_eq]
          refine hs.kept.trans ⟨?_, fun h => ?_⟩
          · rintro h - l' p' t' ⟨⟩ -
            exact ⟨hiff.1 hfull, by rw [hfull] at h; exact h⟩
          · rw [hfull]
            exact (h hc l p t rfl hl).2
        · rw [hs.pos (by rw [hcop, hop]; exact h), show p = pos + l.length from hpos h, taken_append, htaken,
            List.length_append, Nat.add_assoc]

/-- `*offset` and `f_pos` apart, a transfer is its loop. -/
theorem sysSendfile_eq (io : Fops σ) (offset : Option Nat) (count : Nat) (hi : s.fget k inFd = some inp)
    (ho : s.fget k outFd = some out) :
    let c := sysSendfile io s k outFd inFd offset count
    let r := sendLoop io outFd out inp (signedCount count) (signedCount count) (reported offset s inp) 0 s
    c.1 = r.1 ∧ c.2.2.got = r.2.2.got ∧ c.2.2.console = r.2.2.console ∧ c.2.2.sent = r.2.2.sent ∧
      reported c.2.1 c.2.2 inp = r.2.1 := by
  cases offset with
  | none =>
    simp only [sysSendfile, hi, ho, reported, Option.getD_none, Sys.setPos, Function.update_self, and_self]
  | some p =>
    simp only [sysSendfile, hi, ho, reported, Option.getD_some, and_self]

end Transfer
end Pico
