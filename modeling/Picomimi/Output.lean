import Picomimi.FilesRun
import Picomimi.SendLoop
/-!
# Output — where `sys_write` and `sys_sendfile` put their bytes

Both look at the number of the descriptor: what goes to 1 or 2 is printed, whatever file is installed there.
`delivered_iff` says of any tables, files and operations when each of them delivers its bytes, which for `sys_sendfile` are
those it read, to the file, and returns what the write operation returned.  `sys_sendfile` does not return an error of that
operation either.
-/
namespace Pico
namespace Transfer

variable {σ : Type} (io : Fops σ)

/-! ## The law -/

/-- **The bytes went to file `f`, through its write operation, and nowhere else**; the call returned what the operation
did. -/
structure WroteTo (s : Sys σ) (f : Nat) (buf : List UInt8) (ret : Int) (t : Sys σ) : Prop where
  console : t.console = s.console
  called : ∀ op, io.write (s.file f).fOp = some op →
    t.dev = (op (s.file f) s.dev buf (s.file f).fPos).2.2 ∧
    t.sent = s.sent ++ [⟨f, buf, (s.file f).fPos, ofWrite (op (s.file f) s.dev buf (s.file f).fPos).1⟩] ∧
    ret = retOf (ofWrite (op (s.file f) s.dev buf (s.file f).fPos).1)
  refused : io.write (s.file f).fOp = none → t.sent = s.sent ∧ ret = -einval

def WriteLaw (s : Sys σ) (k : Nat) (fd : Int) (buf : List UInt8) : Prop :=
  ∀ f, s.fget k fd = some f → WroteTo io s f buf (sysWrite io s k fd buf).1 (sysWrite io s k fd buf).2

/-- What a transfer by these calls should return: the error if the first one failed, otherwise how many bytes they
took. -/
def outcome : List Sent → Int
  | [] => 0
  | d :: ds =>
    match d.res with
    | .error e => e
    | .ok _ => (accepted (d :: ds)).length

/-- **The bytes read from file `inp` went to file `out`, in order, through its write operation, and nowhere else**; the
call returned what the operation did. -/
structure SentTo (s : Sys σ) (inp out : Nat) (ret : Int) (t : Sys σ) : Prop where
  console : t.console = s.console
  sent : ∃ got new, t.got = s.got ++ got ∧ (∀ g ∈ got, g.file = inp) ∧ t.sent = s.sent ++ new ∧
    (∀ d ∈ new, d.file = out) ∧ accepted new <+: taken got ∧ ret = outcome new

def SendfileLaw (s : Sys σ) (k : Nat) (outFd inFd : Int) (offset : Option Nat) (count : Nat) : Prop :=
  ∀ inp out, s.fget k inFd = some inp → s.fget k outFd = some out →
    SentTo s inp out (sysSendfile io s k outFd inFd offset count).1 (sysSendfile io s k outFd inFd offset count).2.2

/-! ## When it holds -/

/-- What the first read of a transfer gives, and the state after it. -/
def firstChunk (s : Sys σ) (inp : Nat) (offset : Option Nat) (count : Nat) : List UInt8 × Sys σ :=
  if 0 < signedCount count then
    let r := vfsRead io s inp (min (signedCount count) bounce) (offset.getD (s.file inp).fPos)
    (bytesOf r.1, r.2.2)
  else ([], s)

/-- **There is nothing to send, or the output is not standard and its write operation takes the first chunk**, or some of
it. -/
def SendsOut (s : Sys σ) (k : Nat) (outFd inFd : Int) (offset : Option Nat) (count : Nat) : Prop :=
  ∀ inp out, s.fget k inFd = some inp → s.fget k outFd = some out → (firstChunk io s inp offset count).1 ≠ [] →
    ¬Standard outFd ∧ ¬Fails io (firstChunk io s inp offset count).2 out (firstChunk io s inp offset count).1

/-! ## `sys_write` -/

variable {io : Fops σ} {s t u : Sys σ} {k out inp n : Nat} {fd outFd inFd : Int} {buf : List UInt8}

theorem writeLaw_iff : WriteLaw io s k fd buf ↔ ∀ f, s.fget k fd = some f → ¬Standard fd := by
  constructor
  · intro hl f hf hfd
    have hw := hl f hf
    simp only [sysWrite, hf, if_pos (show fd = 1 ∨ fd = 2 from hfd)] at hw
    cases hop : io.write (s.file f).fOp with
    | none =>
      have := (hw.refused hop).2
      simp only [einval] at this
      omega
    | some op => simpa [Sys.print] using (hw.called op hop).2.1
  · intro hn f hf
    simp only [sysWrite, hf, if_neg (show ¬(fd = 1 ∨ fd = 2) from hn f hf)]
    cases hop : io.write (s.file f).fOp with
    | none => exact ⟨rfl, fun op h => (nomatch hop.symm.trans h), fun _ => ⟨rfl, rfl⟩⟩
    | some op =>
      refine ⟨rfl, fun op' h => ?_, fun h => nomatch hop.symm.trans h⟩
      obtain rfl := Option.some.inj (hop.symm.trans h)
      exact ⟨rfl, rfl, rfl⟩

/-! ## `sys_sendfile` -/

/-- The first write of a chunk fails. -/
theorem sendChunk_error (fuel : Nat) {l : List UInt8} {e : Int} (h : ¬Standard outFd) (hl : l ≠ [])
    (hw : (writeHere io t out l).1 = .error e) :
    sendChunk io outFd out (fuel + 1) l t = (0, (writeHere io t out l).2) := by
  simp only [sendChunk, if_neg hl, if_neg (show ¬(outFd = 1 ∨ outFd = 2) from h)]
  rcases hx : writeHere io t out l with ⟨_ | n, u⟩
  · rfl
  · rw [hx] at hw
    cases hw

/-- After the first write of a chunk only others follow. -/
theorem sendChunk_ok {fuel : Nat} {l : List UInt8} (h : ¬Standard outFd) (hl : l ≠ []) (hf : l.length ≤ fuel + 1)
    (hw : (writeHere io t out l).1 = .ok n) :
    ∃ v, PutOut outFd out (writeHere io t out l).2 (sendChunk io outFd out (fuel + 1) l t).2 v := by
  simp only [sendChunk, if_neg hl, if_neg (show ¬(outFd = 1 ∨ outFd = 2) from h)]
  rcases hx : writeHere io t out l with ⟨_ | m, u⟩ <;> rw [hx] at hw
  · cases hw
  · dsimp only
    split
    · exact ⟨[], .refl outFd out u⟩
    · rename_i hm
      exact ⟨_, (sendChunk_spec io outFd out fuel (l.drop m) u (by rw [List.length_drop]; omega)).1⟩

/-- A transfer with a first chunk: what becomes of the chunk, and then the others. -/
theorem sendLoop_first (outFd : Int) (out fuel : Nat) {count pos p : Nat} {l : List UInt8} (hc : 0 < count)
    (hr : vfsRead io s inp (min count bounce) pos = (.ok l, p, t)) (hl : l ≠ []) :
    ∃ m v, (sendLoop io outFd out inp (fuel + 1) count pos 0 s).1 = (sendChunk io outFd out l.length l t).1 + m ∧
      PutOut outFd out (sendChunk io outFd out l.length l t).2
        (sendLoop io outFd out inp (fuel + 1) count pos 0 s).2.2 v ∧
      ((sendChunk io outFd out l.length l t).1 = 0 →
        (sendLoop io outFd out inp (fuel + 1) count pos 0 s).2.2 = (sendChunk io outFd out l.length l t).2) := by
  have hpos : 0 < l.length := List.length_pos_iff.2 hl
  simp only [sendLoop, if_pos hc, Nat.sub_zero, hr, if_neg hl, Nat.zero_add]
  split
  · exact ⟨0, [], rfl, .refl outFd out _, fun _ => rfl⟩
  · obtain ⟨got, w, hs⟩ := sendLoop_sends io outFd out inp fuel count p (sendChunk io outFd out l.length l t).1
      (sendChunk io outFd out l.length l t).2
    exact ⟨w.length, w, hs.total, hs.puts, fun h0 => by omega⟩

/-- What `firstChunk` is, when there is something in it. -/
theorem firstChunk_spec {offset : Option Nat} {count : Nat} (h : (firstChunk io s inp offset count).1 ≠ []) :
    0 < signedCount count ∧ ∃ p, vfsRead io s inp (min (signedCount count) bounce) (offset.getD (s.file inp).fPos) =
      (.ok (firstChunk io s inp offset count).1, p, (firstChunk io s inp offset count).2) := by
  unfold firstChunk at h ⊢
  split at h
  case isFalse => exact absurd rfl h
  case isTrue hc =>
    simp only [if_pos hc]
    refine ⟨hc, ?_⟩
    rcases hv : vfsRead io s inp (min (signedCount count) bounce) (offset.getD (s.file inp).fPos) with ⟨e | l, p, t⟩
    · rw [hv] at h
      exact absurd rfl h
    · exact ⟨p, rfl⟩

/-- Without a first chunk the loop ends at once. -/
theorem sendLoop_nothing (outFd : Int) (out fuel : Nat) {offset : Option Nat} {count : Nat}
    (h : (firstChunk io s inp offset count).1 = []) :
    let r := sendLoop io outFd out inp fuel (signedCount count) (reported offset s inp) 0 s
    r.1 = 0 ∧ r.2.2.console = s.console ∧ r.2.2.sent = s.sent := by
  cases fuel with
  | zero => exact ⟨rfl, rfl, rfl⟩
  | succ fuel =>
    by_cases hc : 0 < signedCount count
    · have hs := vfsRead_same io s inp (min (signedCount count) bounce) (reported offset s inp)
      simp only [firstChunk, if_pos hc] at h
      rcases hv : vfsRead io s inp (min (signedCount count) bounce) (reported offset s inp) with ⟨e | l, p, t⟩ <;>
        rw [hv] at hs
      · simp only [sendLoop, if_pos hc, Nat.sub_zero, hv]
        exact ⟨trivial, hs⟩
      · obtain rfl : l = [] := by rw [← h, show offset.getD (s.file inp).fPos = reported offset s inp from rfl, hv]; rfl
        simp only [sendLoop, if_pos hc, Nat.sub_zero, hv, if_true]
        exact ⟨trivial, hs⟩
    · simp only [sendLoop, if_neg hc]
      exact ⟨trivial, trivial, trivial⟩

/-- `*offset` and `f_pos` apart, a transfer is its loop. -/
theorem sentTo_sysSendfile {offset : Option Nat} {count : Nat} (hi : s.fget k inFd = some inp)
    (ho : s.fget k outFd = some out) :
    SentTo s inp out (sysSendfile io s k outFd inFd offset count).1 (sysSendfile io s k outFd inFd offset count).2.2 ↔
      SentTo s inp out (sendLoop io outFd out inp (signedCount count) (signedCount count) (reported offset s inp) 0 s).1
        (sendLoop io outFd out inp (signedCount count) (signedCount count) (reported offset s inp) 0 s).2.2 := by
  obtain ⟨hret, hgot, hcon, hsent, -⟩ := sysSendfile_eq io offset count hi ho
  rw [hret]
  constructor
  · rintro ⟨h, hs⟩
    exact ⟨hcon.symm.trans h, by rw [← hgot, ← hsent]; exact hs⟩
  · rintro ⟨h, hs⟩
    exact ⟨hcon.trans h, by rw [hgot, hsent]; exact hs⟩

/-- Of the loop only the outcome is left to look at. -/
theorem Sends.sentTo_iff {pos : Nat} {r : Nat × Nat × Sys σ} {got : List Got} {w : List UInt8} {kept : Prop}
    (h : Sends io outFd out inp pos s r 0 got w kept) (hfd : ¬Standard outFd) (new : List Sent)
    (hnew : r.2.2.sent = s.sent ++ new) : SentTo s inp out r.1 r.2.2 ↔ ((accepted new).length : Int) = outcome new := by
  have htotal := h.total
  rw [Nat.zero_add] at htotal
  cases h.puts with
  | console hn => exact absurd hn hfd
  | file new' _ hcon hsent hfile hacc =>
    obtain rfl : new = new' := List.append_cancel_left (hnew.symm.trans hsent)
    rw [htotal, ← hacc]
    constructor
    · rintro ⟨-, got', new', -, -, hn, -, -, hret⟩
      obtain rfl : new = new' := List.append_cancel_left (hnew.symm.trans hn)
      exact hret
    · exact fun hret => ⟨hcon, got, new, h.reads, h.source, hnew, hfile, hacc ▸ h.begins, hret⟩

/-- With a first chunk, what becomes of it decides. -/
theorem sentTo_first {fuel count pos p : Nat} {l : List UInt8} (hc : 0 < count)
    (hr : vfsRead io s inp (min count bounce) pos = (.ok l, p, t)) (hl : l ≠ []) (hsent : t.sent = s.sent) :
    SentTo s inp out (sendLoop io outFd out inp (fuel + 1) count pos 0 s).1
        (sendLoop io outFd out inp (fuel + 1) count pos 0 s).2.2 ↔
      ¬Standard outFd ∧ ¬Fails io t out l := by
  obtain ⟨len, hlen⟩ : ∃ len, l.length = len + 1 := Nat.exists_eq_succ_of_ne_zero (by simpa using hl)
  obtain ⟨got, w, hs⟩ := sendLoop_sends io outFd out inp (fuel + 1) count pos 0 s
  obtain ⟨m, v, htot, hput, hstop⟩ := sendLoop_first outFd out fuel hc hr hl
  by_cases hfd : Standard outFd
  · -- the chunk is printed
    refine iff_of_false (fun h => ?_) fun h => h.1 hfd
    have hchunk : (sendChunk io outFd out l.length l t).1 = l.length := by
      rw [hlen]
      simp only [sendChunk, if_neg hl, if_pos (show outFd = 1 ∨ outFd = 2 from hfd), hlen]
    have htotal := hs.total
    cases hs.puts with
    | file _ hn => exact absurd hfd hn
    | console _ hcon =>
      obtain rfl : w = [] := List.append_cancel_left ((hcon.symm.trans h.console).trans (List.append_nil _).symm)
      rw [List.length_nil] at htotal
      omega
  rw [and_iff_right hfd]
  rcases writeHere_cases io t out l with ⟨⟨e, -, he⟩, hw, hnf⟩ | ⟨op, hop, hm, hres, hw⟩
  · -- `vfs_write` refuses the file
    have hchunk := sendChunk_error len hfd hl he
    rw [← hlen] at hchunk
    rw [hchunk] at hstop
    refine iff_of_true ((hs.sentTo_iff hfd [] ?_).2 rfl) hnf
    rw [hstop rfl, hw, hsent, List.append_nil]
  cases hx : (op (t.file out) t.dev l (t.file out).fPos).1 with
  | error e =>
    -- the error is lost: the total is 0
    rw [hx] at hres hw
    have hchunk := sendChunk_error len hfd hl hres
    rw [← hlen] at hchunk
    rw [hchunk] at hstop
    refine iff_of_false (fun h => ?_) fun h => h ⟨hm, op, e, hop, hx⟩
    have hout := (hs.sentTo_iff hfd _ (by rw [hstop rfl, hw, hsent])).1 h
    have he : ((accepted _).length : Int) = e := hout
    have := e.2
    omega
  | ok n =>
    rw [hx] at hres hw
    obtain ⟨v', hput'⟩ := sendChunk_ok hfd hl (Nat.le_of_eq hlen) hres
    rw [← hlen] at hput'
    obtain ⟨new, hnew⟩ := (hput'.trans hput).logged
    refine iff_of_true ((hs.sentTo_iff hfd (⟨out, l, (t.file out).fPos, .ok n⟩ :: new) ?_).2 rfl) ?_
    · rw [hnew, hw, hsent, List.append_assoc]
      rfl
    · rintro ⟨-, op', e, hop', he⟩
      obtain rfl := Option.some.inj (hop.symm.trans hop')
      cases hx.symm.trans he

theorem sendfileLaw_iff {offset : Option Nat} {count : Nat} :
    SendfileLaw io s k outFd inFd offset count ↔ SendsOut io s k outFd inFd offset count := by
  refine forall_congr' fun inp => forall_congr' fun out => forall_congr' fun hi => forall_congr' fun ho => ?_
  rw [sentTo_sysSendfile hi ho]
  by_cases hl : (firstChunk io s inp offset count).1 = []
  · obtain ⟨h1, h2, h3⟩ := sendLoop_nothing outFd out (signedCount count) hl
    refine iff_of_true ⟨h2, ?_⟩ fun h => absurd hl h
    obtain ⟨got, w, hs⟩ :=
      sendLoop_sends io outFd out inp (signedCount count) (signedCount count) (reported offset s inp) 0 s
    exact ⟨got, [], hs.reads, hs.source, by rw [h3, List.append_nil], by simp, List.nil_prefix, by rw [h1]; rfl⟩
  obtain ⟨hc, p, hr⟩ := firstChunk_spec hl
  obtain ⟨fuel, hfuel⟩ : ∃ fuel, signedCount count = fuel + 1 := Nat.exists_eq_succ_of_ne_zero (Nat.ne_of_gt hc)
  have hsame := vfsRead_same io s inp (min (signedCount count) bounce) (reported offset s inp)
  rw [show reported offset s inp = offset.getD (s.file inp).fPos from rfl, hr] at hsame
  rw [imp_iff_right hl]
  rw [hfuel] at hc hr ⊢
  exact sentTo_first hc hr hl hsame.2

/-- **When each of the two delivers to the file, and returns what its write operation did.** -/
theorem delivered_iff (io : Fops σ) (s : Sys σ) (k : Nat) :
    (∀ fd buf, WriteLaw io s k fd buf ↔ ∀ f, s.fget k fd = some f → ¬Standard fd) ∧
    ∀ outFd inFd offset count, SendfileLaw io s k outFd inFd offset count ↔ SendsOut io s k outFd inFd offset count :=
  ⟨fun _ _ => writeLaw_iff, fun _ _ _ _ => sendfileLaw_iff⟩

/-! ## A redirected standard output -/

/-- A file whose write operation takes everything. -/
def sinkOps : Fops Unit where
  read _ := none
  write _ := some fun _ _ buf pos => (.ok ⟨buf.length, Nat.le_refl _⟩, pos + buf.length, ())
  physAddr _ _ _ := 0
  iSize _ _ := 0
  setISize _ _ _ := ()

/-- `open`, and `dup2` of the new descriptor to 1. -/
def redirectCalls : List Files.Label := [.opn 0 (some 7), .dup2 0 0 1]

def redirected : Files.State := (Files.sysDup2 (Files.sysOpen Files.boot 0 (some 7)).2 0 0 1).2

def redirectedSys : Sys Unit := ⟨(), fun _ => ⟨some 0, 0, 0, fmodeWrite, 1, 0⟩, redirected, [], [], []⟩

/-- What is written to the redirected output is printed, and the file gets nothing. -/
theorem not_delivered :
    (Files.fileMachine.init Files.boot ∧ Files.fileMachine.run Files.boot redirectCalls = some redirected) ∧
    redirectedSys.fget 0 1 = some 7 ∧ ¬WriteLaw sinkOps redirectedSys 0 1 [104, 105] := by
  refine ⟨⟨Files.boot_init, rfl⟩, rfl, fun h => ?_⟩
  have hc := (h 7 rfl).console
  exact absurd hc (by decide +kernel)

end Transfer
end Pico
