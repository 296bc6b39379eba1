import Picomimi.FilesRun
import Picomimi.SendLoop
/-!
# Bulk — short writes in `sys_writev` and `sys_sendfile`

A write operation may take less than it is offered.  After that `sys_writev` goes on with the next buffer, so that a sink
which takes some of it leaves a gap in the stream; and `sys_sendfile` reports the position the read left, although the
rest of the chunk was thrown away.  `conserves_iff` says when the two lose nothing, for any source and any sink.
-/
namespace Pico
namespace Transfer

variable {σ : Type} (io : Fops σ)

/-! ## The law -/

/-- Which bytes of the buffers were taken, by where they stand in the stream; the first buffer is at `off`. -/
def spans : Nat → List (List UInt8) → List Sent → List Nat
  | _, [], _ => []
  | off, b :: bs, ds =>
    if b = [] then spans off bs ds
    else
      match ds with
      | [] => []
      | d :: ds => List.range' off d.took ++ spans (off + b.length) bs ds

/-- **The bytes the sink took are the first ones of the stream, as many as `sys_writev` says.** -/
def WritevLaw (s : Sys σ) (k : Nat) (fd : Int) (iov : List (List UInt8)) : Prop :=
  ∃ new, (sysWritev io s k fd iov).2.sent = s.sent ++ new ∧
    spans 0 iov new = List.range (sysWritev io s k fd iov).1.toNat ∧
    accepted new = iov.flatten.take (sysWritev io s k fd iov).1.toNat

/-- **What the source gave is what went out, as much as `sys_sendfile` says**; and the position moved by as much, if the
source is one that has a position. -/
def SendfileKeeps (s : Sys σ) (k : Nat) (outFd inFd : Int) (offset : Option Nat) (count : Nat) : Prop :=
  ∀ inp out, s.fget k inFd = some inp → s.fget k outFd = some out →
    (∃ got w, (sysSendfile io s k outFd inFd offset count).2.2.got = s.got ++ got ∧
      PutOut outFd out s (sysSendfile io s k outFd inFd offset count).2.2 w ∧ taken got = w ∧
      (sysSendfile io s k outFd inFd offset count).1 = w.length) ∧
    (Seekable io (s.file inp).fOp →
      (reported (sysSendfile io s k outFd inFd offset count).2.1 (sysSendfile io s k outFd inFd offset count).2.2 inp :
        Int) = reported offset s inp + (sysSendfile io s k outFd inFd offset count).1)

/-! ## When it holds -/

/-- The sink takes nothing of these buffers. -/
def Refuses (f : Nat) : List (List UInt8) → Sys σ → Prop
  | [], _ => True
  | b :: bs, s =>
    if b = [] then Refuses f bs s
    else ∀ n, (writeHere io s f b).1 = .ok n → n = 0 ∧ Refuses f bs (writeHere io s f b).2

/-- **After a short write the sink takes nothing more.** -/
def Gapless (f : Nat) : List (List UInt8) → Sys σ → Prop
  | [], _ => True
  | b :: bs, s =>
    if b = [] then Gapless f bs s
    else ∀ n, (writeHere io s f b).1 = .ok n →
      if n = b.length then Gapless f bs (writeHere io s f b).2 else Refuses io f bs (writeHere io s f b).2

def WritevFits (s : Sys σ) (k : Nat) (fd : Int) (iov : List (List UInt8)) : Prop :=
  iov.length ≤ iovMax → ∀ f, s.fget k fd = some f → Gapless io f iov s

def SendfileFits (s : Sys σ) (k : Nat) (outFd inFd : Int) (offset : Option Nat) (count : Nat) : Prop :=
  ∀ inp out, s.fget k inFd = some inp → s.fget k outFd = some out →
    KeepsUp io outFd out inp (signedCount count) (signedCount count) (reported offset s inp) 0 s

/-! ## `sys_writev` -/

variable {io : Fops σ} {s t u : Sys σ} {k f out inp n m off : Nat} {fd outFd inFd : Int} {buf : List UInt8}

/-- Calls that took nothing. -/
theorem spans_eq_nil : ∀ (bs : List (List UInt8)) (off : Nat) {ds : List Sent}, (∀ d ∈ ds, d.took = 0) →
    spans off bs ds = []
  | [], _, _, _ => rfl
  | b :: bs, off, ds, h => by
    by_cases hb : b = []
    · simp only [spans, if_pos hb, spans_eq_nil bs off h]
    · cases ds with
      | nil => simp only [spans, if_neg hb]
      | cons d ds =>
        have hds := spans_eq_nil bs (off + b.length) fun x hx => h x (List.mem_cons_of_mem _ hx)
        simp only [spans, if_neg hb, h d List.mem_cons_self, hds]
        rfl

/-- What a run of the loop takes of the buffers, the first of them at `off`. -/
structure Gathers (io : Fops σ) (f off : Nat) (iov : List (List UInt8)) (s t : Sys σ) (m : Nat) (new : List Sent) :
    Prop where
  sent : t.sent = s.sent ++ new
  length : (spans off iov new).length = m
  above : ∀ x ∈ spans off iov new, off ≤ x
  refuses : Refuses io f iov s → accepted new = []
  refuses_iff : m = 0 ↔ Refuses io f iov s
  gapless : Gapless io f iov s → accepted new = iov.flatten.take m
  gapless_iff : spans off iov new = List.range' off m ↔ Gapless io f iov s

/-- Two runs of numbers make one when the second goes on where the first ends, or is empty. -/
theorem range'_append_iff {l : List Nat} (hn : n < m) (hl : ∀ x ∈ l, off + m ≤ x) :
    List.range' off n ++ l = List.range' off (n + l.length) ↔ l.length = 0 := by
  constructor
  · intro h
    rw [← List.range'_append_1] at h
    have hl' := List.append_cancel_left h
    by_contra hne
    obtain ⟨c, hc⟩ := Nat.exists_eq_succ_of_ne_zero hne
    have hmem : off + n ∈ l := by
      rw [hl', hc, List.range'_succ]
      exact List.mem_cons_self
    exact absurd (hl _ hmem) (by omega)
  · intro h
    rw [List.length_eq_zero_iff.1 h, List.append_nil, List.length_nil, Nat.add_zero]

/-- A buffer the sink fails on. -/
theorem Gathers.error (off : Nat) {b : List UInt8} (bs : List (List UInt8)) {e : Int} (hb : b ≠ [])
    (h : (writeHere io s f b).1 = .error e) : ∃ new, Gathers io f off (b :: bs) s (writeHere io s f b).2 0 new := by
  obtain ⟨-, new, hs, hnew⟩ := writeHere_error h
  have hdata : accepted new = [] := List.flatMap_eq_nil_iff.2 fun d hd => by rw [Sent.data, (hnew d hd).2, List.take_zero]
  have hspans : spans off (b :: bs) new = [] := spans_eq_nil _ _ fun d hd => (hnew d hd).2
  have hvac : ∀ n, (writeHere io s f b).1 ≠ .ok n := by
    intro n hn
    cases h.symm.trans hn
  refine ⟨new, hs, by rw [hspans]; rfl, by rw [hspans]; simp, fun _ => hdata, ?_,
    fun _ => by rw [hdata, List.take_zero], ?_⟩
  · simp only [Refuses, if_neg hb]
    exact iff_of_true trivial fun n hn => absurd hn (hvac n)
  · rw [hspans]
    simp only [Gapless, if_neg hb]
    exact iff_of_true rfl fun n hn => absurd hn (hvac n)

/-- A buffer of which the sink takes `n` bytes. -/
theorem Gathers.cons {b : List UInt8} {bs : List (List UInt8)} {new : List Sent} (hb : b ≠ [])
    (h : (writeHere io s f b).1 = .ok n) (hg : Gathers io f (off + b.length) bs (writeHere io s f b).2 t m new) :
    ∃ d, Gathers io f off (b :: bs) s t (n + m) (d :: new) := by
  obtain ⟨hn, pos, hs⟩ := writeHere_ok h
  have hdata : accepted (⟨f, b, pos, .ok n⟩ :: new) = b.take n ++ accepted new := by
    rw [accepted, List.flatMap_cons]
    rfl
  have hspans : spans off (b :: bs) (⟨f, b, pos, .ok n⟩ :: new) = List.range' off n ++ spans (off + b.length) bs new := by
    simp only [spans, if_neg hb]
    rfl
  have href : Refuses io f (b :: bs) s ↔ n = 0 ∧ Refuses io f bs (writeHere io s f b).2 := by
    simp only [Refuses, if_neg hb, h]
    exact ⟨fun hr => hr n rfl, fun hr x hx => Except.ok.inj hx ▸ hr⟩
  have hgap : Gapless io f (b :: bs) s ↔
      if n = b.length then Gapless io f bs (writeHere io s f b).2 else Refuses io f bs (writeHere io s f b).2 := by
    simp only [Gapless, if_neg hb, h]
    exact ⟨fun hr => hr n rfl, fun hr x hx => Except.ok.inj hx ▸ hr⟩
  refine ⟨⟨f, b, pos, .ok n⟩, ?_, ?_, ?_, ?_, ?_, ?_, ?_⟩
  · rw [hg.sent, hs, List.append_assoc]
    rfl
  · rw [hspans, List.length_append, List.length_range', hg.length]
  · intro x hx
    rw [hspans] at hx
    rcases List.mem_append.1 hx with h | h
    · exact (List.mem_range'_1.1 h).1
    · exact Nat.le_trans (Nat.le_add_right _ _) (hg.above x h)
  · intro hr
    obtain ⟨rfl, hr⟩ := href.1 hr
    rw [hdata, hg.refuses hr]
    rfl
  · rw [href, ← hg.refuses_iff]
    omega
  · intro hgp
    rw [hgap] at hgp
    split at hgp
    case isTrue hfull =>
      rw [hdata, hg.gapless hgp, hfull, List.take_length, List.flatten_cons, List.take_length_add_append]
    case isFalse hshort =>
      rw [hdata, hg.refuses hgp, hg.refuses_iff.2 hgp, List.append_nil, List.flatten_cons, Nat.add_zero,
        List.take_append_of_le_length hn]
  · rw [hspans, hgap]
    by_cases hfull : n = b.length
    · rw [if_pos hfull, ← hg.gapless_iff, ← hfull, ← List.range'_append_1, List.append_cancel_left_eq]
    · rw [if_neg hfull, ← hg.refuses_iff, ← hg.length]
      exact range'_append_iff (Nat.lt_of_le_of_ne hn hfull) hg.above

theorem writevFrom_gathers (io : Fops σ) (f : Nat) : ∀ (iov : List (List UInt8)) (off total : Nat) (s : Sys σ),
    ∃ m new, Gathers io f off iov s (writevFrom io f iov total s).2 m new ∧
      (writevFrom io f iov total s).1.toNat = total + m
  | [], off, total, s => ⟨0, [], ⟨by simp [writevFrom], rfl, by simp [spans], fun _ => rfl, by simp [Refuses],
      fun _ => rfl, by simp [Gapless, spans]⟩, by simp [writevFrom]⟩
  | b :: bs, off, total, s => by
    by_cases hb : b = []
    · obtain ⟨m, new, hg, ht⟩ := writevFrom_gathers io f bs off total s
      subst hb
      refine ⟨m, new, ?_, by simpa [writevFrom] using ht⟩
      exact ⟨by simpa [writevFrom] using hg.sent, by simpa [spans] using hg.length, by simpa [spans] using hg.above,
        by simpa [Refuses] using hg.refuses, by simpa [Refuses] using hg.refuses_iff, by simpa [Gapless] using hg.gapless,
        by simpa [Gapless, spans] using hg.gapless_iff⟩
    · rcases hw : writeHere io s f b with ⟨e | n, t⟩
      · obtain ⟨new, hg⟩ := Gathers.error off bs hb (by rw [hw])
        rw [hw] at hg
        refine ⟨0, new, by simpa only [writevFrom, if_neg hb, hw] using hg, ?_⟩
        have he : e < 0 := (writeHere_error (s := s) (by rw [hw])).1
        simp only [writevFrom, if_neg hb, hw]
        split <;> omega
      · obtain ⟨m, new, hg, ht⟩ := writevFrom_gathers io f bs (off + b.length) (total + n) t
        obtain ⟨d, hg⟩ := Gathers.cons (s := s) hb (by rw [hw]) (by rw [hw]; exact hg)
        refine ⟨n + m, d :: new, by simpa only [writevFrom, if_neg hb, hw, Int.natCast_add] using hg, ?_⟩
        simp only [writevFrom, if_neg hb, hw]
        rw [← Nat.add_assoc, ← ht, Int.natCast_add]

theorem writevLaw_iff {iov : List (List UInt8)} : WritevLaw io s k fd iov ↔ WritevFits io s k fd iov := by
  have hnone : ∀ e : Int, e < 0 → sysWritev io s k fd iov = (e, s) → WritevLaw io s k fd iov := by
    intro e he h
    refine ⟨[], by rw [h, List.append_nil], ?_, ?_⟩ <;> rw [h, Int.toNat_of_nonpos (Int.le_of_lt he)]
    · exact spans_eq_nil _ _ (by simp)
    · rw [List.take_zero]
      rfl
  unfold WritevFits
  by_cases hv : iov = [] ∨ iovMax < iov.length
  · refine iff_of_true (hnone (-einval) (by decide) (if_pos hv)) fun hle f _ => ?_
    obtain rfl := hv.resolve_right (Nat.not_lt.2 hle)
    exact trivial
  rw [imp_iff_right (Nat.not_lt.1 (not_or.1 hv).2)]
  cases hf : s.fget k fd with
  | none =>
    refine iff_of_true (hnone (-ebadf) (by decide) ?_) fun f h => nomatch h
    simp only [sysWritev, if_neg hv, hf]
  | some f =>
    obtain ⟨m, new, hg, ht⟩ := writevFrom_gathers io f iov 0 0 s
    have hcall : sysWritev io s k fd iov = writevFrom io f iov 0 s := by simp only [sysWritev, if_neg hv, hf]
    have hret : (sysWritev io s k fd iov).1.toNat = m := by rw [hcall, ← Nat.zero_add m, ← ht]; rfl
    have hsent : (sysWritev io s k fd iov).2.sent = s.sent ++ new := by rw [hcall]; exact hg.sent
    constructor
    · rintro ⟨new', hs, hspans, -⟩ f' h
      obtain rfl := Option.some.inj h
      obtain rfl : new = new' := List.append_cancel_left (hsent.symm.trans hs)
      rw [hret, List.range_eq_range'] at hspans
      exact hg.gapless_iff.1 hspans
    · intro h
      have hgp := h f rfl
      refine ⟨new, hsent, ?_, ?_⟩ <;> rw [hret]
      · rw [List.range_eq_range']
        exact hg.gapless_iff.2 hgp
      · exact hg.gapless hgp

/-! ## `sys_sendfile` -/

theorem sendfileKeeps_iff {offset : Option Nat} {count : Nat} :
    SendfileKeeps io s k outFd inFd offset count ↔ SendfileFits io s k outFd inFd offset count := by
  refine forall_congr' fun inp => forall_congr' fun out => forall_congr' fun hi => forall_congr' fun ho => ?_
  obtain ⟨got, w, hs⟩ :=
    sendLoop_sends io outFd out inp (signedCount count) (signedCount count) (reported offset s inp) 0 s
  obtain ⟨hret, hgot, hcon, hsent, hrep⟩ := sysSendfile_eq io offset count hi ho
  have htotal := hs.total
  rw [Nat.zero_add] at htotal
  constructor
  · rintro ⟨⟨got', w', hg', -, htaken, hret'⟩, -⟩
    obtain rfl : got = got' := List.append_cancel_left (hs.reads.symm.trans (hgot.symm.trans hg'))
    rw [hret, htotal] at hret'
    -- the two streams begin alike and are equally long
    refine hs.kept.1 (hs.begins.eq_of_length ?_).symm
    rw [htaken]
    exact Int.ofNat.inj hret'
  · intro h
    have htaken := hs.kept.2 h
    refine ⟨⟨got, w, hgot.trans hs.reads, hs.puts.congr hcon hsent, htaken, by rw [hret, htotal]⟩, fun hseek => ?_⟩
    rw [hrep, hs.pos hseek, hret, htotal, htaken, Int.natCast_add]

/-- **When the two calls lose nothing**: after a short write the sink takes nothing more, and it takes every chunk. -/
theorem conserves_iff (io : Fops σ) (s : Sys σ) (k : Nat) :
    (∀ fd iov, WritevLaw io s k fd iov ↔ WritevFits io s k fd iov) ∧
    ∀ outFd inFd offset count,
      SendfileKeeps io s k outFd inFd offset count ↔ SendfileFits io s k outFd inFd offset count :=
  ⟨fun _ _ => writevLaw_iff, fun _ _ _ _ => sendfileKeeps_iff⟩

/-! ## A sink that takes one byte at a time -/

/-- A source of endless bytes, and a sink that takes one byte of a call, and no more after the second. -/
def slowOps : Fops Nat where
  read _ := some fun _ n count pos =>
    (.ok ⟨(List.range count).map UInt8.ofNat, by simp⟩, pos + count, n)
  write _ := some fun _ n buf pos =>
    (.ok ⟨if n < 2 then min 1 buf.length else 0, by split <;> omega⟩, pos, n + 1)
  physAddr _ _ _ := 0
  iSize _ _ := 0
  setISize n _ _ := n

/-- Task 0 has the source at 0 and the sink at 3. -/
def slowSys : Sys Nat where
  dev := 0
  file _ := ⟨none, 0, 0, 3, 2, 0⟩
  fs := { Files.boot with files := fun k => if k = 0 then some ⟨4, fun i => if i = 0 then ⟨some 5, false⟩ else
    if i = 3 then ⟨some 6, false⟩ else .empty⟩ else none }
  console := []
  got := []
  sent := []

/-- Of two buffers of two bytes the first byte of each is taken; and of ten bytes read two are written, but the position
is 10. -/
theorem not_conserves : ¬WritevLaw slowOps slowSys 0 3 [[1, 2], [3, 4]] ∧
    (sysWritev slowOps slowSys 0 3 [[1, 2], [3, 4]]).1 = 2 ∧
    accepted (sysWritev slowOps slowSys 0 3 [[1, 2], [3, 4]]).2.sent = [1, 3] ∧
    ¬SendfileKeeps slowOps slowSys 0 3 0 (some 0) 10 ∧
    (sysSendfile slowOps slowSys 0 3 0 (some 0) 10).1 = 2 ∧
    (sysSendfile slowOps slowSys 0 3 0 (some 0) 10).2.1 = some 10 := by
  refine ⟨?_, by decide +kernel, by decide +kernel, ?_, by decide +kernel, by decide +kernel⟩
  · rintro ⟨new, hs, -, hacc⟩
    obtain rfl : (sysWritev slowOps slowSys 0 3 [[1, 2], [3, 4]]).2.sent = new := hs
    exact absurd hacc (by decide +kernel)
  · intro h
    obtain ⟨⟨got, w, hg, -, htaken, hret⟩, -⟩ := h 5 6 rfl rfl
    obtain rfl : (sysSendfile slowOps slowSys 0 3 0 (some 0) 10).2.2.got = got := hg
    subst htaken
    exact absurd hret (by decide +kernel)

end Transfer
end Pico
