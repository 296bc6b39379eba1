import Picomimi.RamfsFops
/-!
# Append — the writes of files with `O_APPEND`

`O_APPEND` is stored at open and by `F_SETFL`, and read nowhere: a write goes where the position of its open file says.  The
runs are those of `Transfer` over one file of ramfs and any number of descriptors; `law_iff_runOk` says in which of them every
write through a descriptor with the flag leaves what was in the file and puts its bytes behind it.
-/
namespace Pico
namespace Transfer

open Lib
open Ramfs (ramfsWrite)

def oAppend : Nat := 0x400

variable {τ : Type} {io : Fops τ}

/-- Open file `f` is one of the file, with `O_APPEND`. -/
def IsAppend (w : World (Dev τ)) (f : Nat) : Prop := (w.sys.file f).fOp = 0 ∧ (w.sys.file f).fFlags &&& oAppend ≠ 0

/-- What was in the file stays, and the bytes the call says it took come behind it. -/
def AppendOf (s s' : Ramfs.State) (buf : List UInt8) (ret : Int) : Prop := contents s' = contents s ++ buf.take ret.toNat

namespace Append

/-- **The law**: a write through a descriptor with `O_APPEND` is an append. -/
def Law (io : Fops τ) (w : World (Dev τ)) : Label (Others τ) → Prop
  | .write k fd buf => ∀ f ∈ w.sys.fget k fd, IsAppend w f →
    AppendOf w.sys.dev.file (sysWrite (ramfsFops io) w.sys k fd buf).2.dev.file buf
      (sysWrite (ramfsFops io) w.sys k fd buf).1
  | .writev k fd iov => ∀ f ∈ w.sys.fget k fd, IsAppend w f →
    AppendOf w.sys.dev.file (sysWritev (ramfsFops io) w.sys k fd iov).2.dev.file iov.flatten
      (sysWritev (ramfsFops io) w.sys k fd iov).1
  | _ => True

/-- **The position is at the end of the file**, or nothing is written: a call that prints has no bytes, there is no memory, or
there are no bytes and no hole; `writev` leaves buffers without bytes out. -/
def AtEnd (w : World (Dev τ)) : Label (Others τ) → Prop
  | .write k fd buf => ∀ f ∈ w.sys.fget k fd, IsAppend w f →
    if fd = 1 ∨ fd = 2 then buf = []
    else NoRoom w.sys.dev.file (add64 (w.sys.file f).fPos buf.length) ∨
      (w.sys.file f).fPos = fileSize w.sys.dev.file ∨ buf = [] ∧ (w.sys.file f).fPos ≤ fileSize w.sys.dev.file
  | .writev k fd iov => ∀ f ∈ w.sys.fget k fd, IsAppend w f →
    iov.length ≤ iovMax → (w.sys.file f).fMode &&& fmodeWrite ≠ 0 → ∀ b ∈ iov.find? fun b => b ≠ [],
      NoRoom w.sys.dev.file (add64 (w.sys.file f).fPos b.length) ∨ (w.sys.file f).fPos = fileSize w.sys.dev.file
  | _ => True

/-- The writes of the step have their room. -/
def Fits (io : Fops τ) (w : World (Dev τ)) (a : Label (Others τ)) : Prop :=
  ∀ w' ∈ step (ramfsFops io) others w a, w'.sys.dev.fits = true

instance (w : World (Dev τ)) (f : Nat) : Decidable (IsAppend w f) := inferInstanceAs (Decidable (_ ∧ _))

instance (s s' : Ramfs.State) (buf : List UInt8) (ret : Int) : Decidable (AppendOf s s' buf ret) :=
  inferInstanceAs (Decidable (_ = _))

instance (io : Fops τ) (w : World (Dev τ)) : ∀ a, Decidable (Law io w a)
  | .write k fd _ | .writev k fd _ => inferInstanceAs (Decidable (∀ f ∈ w.sys.fget k fd, IsAppend w f → AppendOf _ _ _ _))
  | .opn .. | .pipe .. | .table _ | .read .. | .pread .. | .pwrite .. | .readv .. | .sendfile .. | .ftruncate .. | .mmap ..
  | .lseek .. | .setfl .. | .other _ => inferInstanceAs (Decidable True)

instance (w : World (Dev τ)) : ∀ a, Decidable (AtEnd w a)
  | .write k fd buf => inferInstanceAs (Decidable (∀ f ∈ w.sys.fget k fd, IsAppend w f →
      if fd = 1 ∨ fd = 2 then buf = [] else _ ∨ _ ∨ _))
  | .writev k fd iov => inferInstanceAs (Decidable (∀ f ∈ w.sys.fget k fd, IsAppend w f →
      iov.length ≤ iovMax → _ ≠ 0 → ∀ b ∈ iov.find? fun b => b ≠ [], _ ∨ _))
  | .opn .. | .pipe .. | .table _ | .read .. | .pread .. | .pwrite .. | .readv .. | .sendfile .. | .ftruncate .. | .mmap ..
  | .lseek .. | .setfl .. | .other _ => inferInstanceAs (Decidable True)

instance (io : Fops τ) (w : World (Dev τ)) (a : Label (Others τ)) : Decidable (Fits io w a) :=
  inferInstanceAs (Decidable (∀ w' ∈ step (ramfsFops io) others w a, w'.sys.dev.fits = true))

end Append

/-! ## One write -/

variable {s : Sys (Dev τ)} {f : Nat} {buf : List UInt8}

/-- A call that took nothing and left the file. -/
theorem appendOf_of_nonpos {s s' : Ramfs.State} {ret : Int} (hs : s' = s) (hret : ret ≤ 0) : AppendOf s s' buf ret := by
  rw [AppendOf, hs, Int.toNat_of_nonpos hret, List.take_zero, List.append_nil]

theorem fileSize_eq_length (s : Ramfs.State) : fileSize s = (contents s).length := by
  cases hri : s.inode.iPrivate with
  | none => rw [fileSize, contents, hri]; rfl
  | some ri => rw [fileSize_eq hri, contents_length hri]

/-- A file without room takes nothing, and another one all the bytes. -/
theorem Held.appendOf_iff {s : Ramfs.State} {pos : Nat} (hh : Held s) (hfit : FitsAt s pos buf) :
    AppendOf s (s.write pos buf) buf (retOf (ramfsWrite s.slab.h s.inode buf pos).1) ↔
      NoRoom s (add64 pos buf.length) ∨ pos = fileSize s ∨ buf = [] ∧ pos ≤ fileSize s := by
  unfold AppendOf
  rcases hh.write hfit with ⟨hno, hr⟩ | ⟨hno, hst⟩
  · rw [hr.file, hr.res]
    exact iff_of_true (List.append_nil _).symm (.inl hno)
  · rw [or_iff_right hno, hst.res]
    have htake : buf.take (retOf (.ok buf.length)).toNat = buf := List.take_length
    rw [htake]
    constructor
    · intro happ
      have hlen := congrArg List.length happ
      rw [List.length_append, ← fileSize_eq_length, ← fileSize_eq_length, hst.size] at hlen
      by_cases hb : buf = []
      · subst hb
        rw [List.length_nil] at hlen
        exact .inr ⟨rfl, by omega⟩
      · have hpos := List.length_pos_iff.2 hb
        exact .inl (by omega)
    · rintro (hpos | ⟨rfl, hle⟩)
      · rw [hst.contents_write (Nat.le_of_eq hpos), hpos, fileSize_eq_length, overwrite_end]
      · rw [hst.contents_write hle, overwrite_nil, List.append_nil]

/-- What `vfs_write` at the position of the file comes to. -/
theorem writeHere_ramfs (io : Fops τ) (buf : List UInt8) (hop : (s.file f).fOp = 0) (hm : (s.file f).fMode &&& fmodeWrite ≠ 0) :
    (writeHere (ramfsFops io) s f buf).1 = (ramfsWrite s.dev.file.slab.h s.dev.file.inode buf (s.file f).fPos).1 ∧
    (writeHere (ramfsFops io) s f buf).2.dev = { s.dev with
      file := s.dev.file.write (s.file f).fPos buf
      fits := s.dev.fits && decide (FitsAt s.dev.file (s.file f).fPos buf) } ∧
    (writeHere (ramfsFops io) s f buf).2.file f = { s.file f with
      fPos := (ramfsWrite s.dev.file.slab.h s.dev.file.inode buf (s.file f).fPos).2.2.2 } := by
  have hw : (ramfsFops io).write (s.file f).fOp = some ramfsWriteOp := by rw [hop]; rfl
  simp only [writeHere, vfsWrite, hw, if_neg hm, callWrite, ramfsWriteOp, ofWrite_writeRes, Sys.setPos,
    Function.update_self, and_self]

/-- Once a write did not have its room, no call changes that. -/
theorem Via.fits {t : Sys (Dev τ)} (h : Via (ramfsFops io) s t) (hfits : t.dev.fits = true) : s.dev.fits = true := by
  by_contra hs
  refine absurd hfits (Bool.not_eq_true _ ▸ ?_)
  refine h.dev (P := fun d => d.fits = false) (fun o op hop file d count pos hd => ?_)
    (fun o op hop file d buf pos hd => ?_) (Bool.eq_false_of_not_eq_true hs)
  · cases o with
    | zero => cases hop; exact hd
    | succ o => obtain ⟨op', -, rfl⟩ := Option.map_eq_some_iff.1 hop; exact hd
  · cases o with
    | zero => cases hop; exact Bool.and_eq_false_imp.2 fun h => absurd (h.symm.trans hd) (by decide)
    | succ o => obtain ⟨op', -, rfl⟩ := Option.map_eq_some_iff.1 hop; exact hd

/-! ## `writev` -/

/-- **What a loop over buffers wrote**: `n` bytes of `bytes`, one buffer behind the other from `pos` on. -/
structure Wrote (s s' : Ramfs.State) (pos n : Nat) (bytes : List UInt8) : Prop where
  le : n ≤ bytes.length
  none : n = 0 → s' = s
  size : 0 < n → fileSize s' = max (fileSize s) (pos + n)
  bytes : pos ≤ fileSize s → contents s' = overwrite (contents s) pos (bytes.take n)

theorem Wrote.zero (s : Ramfs.State) (pos : Nat) (bytes : List UInt8) : Wrote s s pos 0 bytes :=
  ⟨Nat.zero_le _, fun _ => rfl, fun h => absurd h (Nat.lt_irrefl 0), fun _ => (overwrite_nil _ _).symm⟩

/-- A write that had its room, and the loop after it. -/
theorem Wrote.cons {s s' : Ramfs.State} {pos n : Nat} {bytes : List UInt8} (hst : Stored s pos buf) (hb : buf ≠ [])
    (h : Wrote (s.write pos buf) s' (pos + buf.length) n bytes) : Wrote s s' pos (buf.length + n) (buf ++ bytes) := by
  have hpos := List.length_pos_iff.2 hb
  refine ⟨?_, fun h0 => absurd h0 (by omega), fun _ => ?_, fun hle => ?_⟩
  · rw [List.length_append]
    exact Nat.add_le_add_left h.le _
  · by_cases hn : n = 0
    · rw [h.none hn, hst.size, hn, Nat.add_zero]
    · rw [h.size (Nat.pos_of_ne_zero hn), hst.size]
      omega
  · rw [h.bytes (by rw [hst.size]; omega), hst.contents_write hle, List.take_length_add_append,
      overwrite_overwrite (by rwa [← fileSize_eq_length])]

/-- **The loop of `writev`** over one file of ramfs; it writes nothing exactly when there is no room for its first bytes. -/
theorem writevFrom_wrote : ∀ (bs : List (List UInt8)) (total : Nat) (s : Sys (Dev τ)), (s.file f).fOp = 0 →
    (s.file f).fMode &&& fmodeWrite ≠ 0 → Held s.dev.file →
    (writevFrom (ramfsFops io) f bs total s).2.dev.fits = true → ∃ n : Nat,
      ((writevFrom (ramfsFops io) f bs total s).1 = ((total + n : Nat) : Int) ∨
        total = 0 ∧ n = 0 ∧ (writevFrom (ramfsFops io) f bs total s).1 < 0) ∧
      Wrote s.dev.file (writevFrom (ramfsFops io) f bs total s).2.dev.file (s.file f).fPos n bs.flatten ∧
      (n = 0 ↔ ∀ b ∈ bs.find? fun b => b ≠ [], NoRoom s.dev.file (add64 (s.file f).fPos b.length))
  | [], total, s, _, _, _, _ => ⟨0, .inl rfl, .zero _ _ _, by simp⟩
  | b :: bs, total, s, hop, hm, hh, hfits => by
    unfold writevFrom at hfits ⊢
    by_cases hb : b = []
    · subst hb
      simp only [if_true] at hfits ⊢
      simpa using writevFrom_wrote bs total s hop hm hh hfits
    · simp only [if_neg hb] at hfits ⊢
      have hfind : (b :: bs).find? (fun b => b ≠ []) = some b := by simp [hb]
      obtain ⟨hres, hdev, hfile⟩ := writeHere_ramfs io b hop hm
      have hvia : ∀ total t, Via (ramfsFops io) t (writevFrom (ramfsFops io) f bs total t).2 := writevFrom_via f bs
      rw [hfind, List.flatten_cons]
      generalize writeHere (ramfsFops io) s f b = r at hres hdev hfile hfits ⊢
      obtain ⟨res, t⟩ := r
      dsimp only at hres hdev hfile
      have ht : t.dev.fits = true := by
        cases res with
        | error e => exact hfits
        | ok n => exact (hvia (total + n) t).fits hfits
      rw [hdev] at ht
      have hfit := of_decide_eq_true (Bool.and_eq_true_iff.1 ht).2
      rcases hh.write hfit with ⟨hno, hr⟩ | ⟨hno, hst⟩
      · rw [hr.res] at hres
        subst hres
        refine ⟨0, ?_, ?_, iff_of_true rfl fun b' hb' => Option.some.inj hb' ▸ hno⟩
        · by_cases h0 : total = 0
          · exact .inr ⟨h0, rfl, by rw [h0]; exact (by decide : -Ramfs.enomem < 0)⟩
          · exact .inl (if_neg (by omega))
        · have hsame : t.dev.file = s.dev.file := by rw [hdev]; exact hr.file
          dsimp only
          rw [hsame]
          exact .zero _ _ _
      · rw [hst.res] at hres
        subst hres
        have hpos := List.length_pos_iff.2 hb
        have hcast : (total : Int) + (b.length : Nat) = ((total + b.length : Nat) : Int) := rfl
        dsimp only at hfits ⊢
        rw [hcast] at hfits ⊢
        rw [hst.ppos] at hfile
        have ht' : t.dev.file = s.dev.file.write (s.file f).fPos b := by rw [hdev]
        obtain ⟨n, hret, hw, -⟩ := writevFrom_wrote bs (total + b.length) t (by rw [hfile]; exact hop)
          (by rw [hfile]; exact hm) (ht' ▸ hst.held) hfits
        rw [hfile, ht'] at hw
        refine ⟨b.length + n, .inl ?_, .cons hst hb hw, iff_of_false (by omega) fun hall => hno (hall b rfl)⟩
        rw [hret.resolve_right fun h => absurd h.1 (by omega), Nat.add_assoc]

/-- **`writev` appends exactly when its position is at the end**, unless it writes nothing. -/
theorem appendOf_writev_iff {bs : List (List UInt8)} (hop : (s.file f).fOp = 0) (hm : (s.file f).fMode &&& fmodeWrite ≠ 0)
    (hh : Held s.dev.file) (hfits : (writevFrom (ramfsFops io) f bs 0 s).2.dev.fits = true) :
    AppendOf s.dev.file (writevFrom (ramfsFops io) f bs 0 s).2.dev.file bs.flatten
      (writevFrom (ramfsFops io) f bs 0 s).1 ↔
    ∀ b ∈ bs.find? fun b => b ≠ [],
      NoRoom s.dev.file (add64 (s.file f).fPos b.length) ∨ (s.file f).fPos = fileSize s.dev.file := by
  obtain ⟨n, hret, hw, hzero⟩ := writevFrom_wrote bs 0 s hop hm hh hfits
  rw [Int.natCast_zero] at hret hw
  have hnat : (writevFrom (ramfsFops io) f bs 0 s).1.toNat = n := by
    rcases hret with h | ⟨-, rfl, h⟩ <;> omega
  unfold AppendOf
  rw [hnat]
  by_cases hn : n = 0
  · rw [hw.none hn, hn, List.take_zero, List.append_nil]
    exact iff_of_true rfl fun b hb => .inl (hzero.1 hn b hb)
  · have hpos := Nat.pos_of_ne_zero hn
    constructor
    · intro happ b hb
      have hlen := congrArg List.length happ
      rw [List.length_append, ← fileSize_eq_length, ← fileSize_eq_length, hw.size hpos, List.length_take,
        Nat.min_eq_left hw.le] at hlen
      exact .inr (by omega)
    · intro hall
      obtain ⟨b, hb, hroom⟩ : ∃ b ∈ bs.find? fun b => b ≠ [], ¬NoRoom s.dev.file (add64 (s.file f).fPos b.length) := by
        by_contra hno
        exact hn (hzero.2 fun b hb => not_not.1 fun h => hno ⟨b, hb, h⟩)
      have hend := (hall b hb).resolve_left hroom
      rw [hw.bytes (Nat.le_of_eq hend), hend, fileSize_eq_length, overwrite_end]

/-! ## Runs -/

namespace Append

variable {w w' : World (Dev τ)} {a : Label (Others τ)}

/-- **A step whose writes have their room obeys the law exactly when its position is at the end.** -/
theorem law_iff (hh : Held w.sys.dev.file) (hfits : Fits io w a) : Law io w a ↔ AtEnd w a := by
  cases a with
  | write k fd buf =>
    have hfit' : (sysWrite (ramfsFops io) w.sys k fd buf).2.dev.fits = true := hfits _ rfl
    refine forall₂_congr fun f hf => forall_congr' fun ⟨hop, _⟩ => ?_
    have hw : (ramfsFops io).write (w.sys.file f).fOp = some ramfsWriteOp := by rw [hop]; rfl
    unfold sysWrite at hfit' ⊢
    rw [Option.mem_def.1 hf] at hfit' ⊢
    by_cases hfd : fd = 1 ∨ fd = 2
    · simp only [if_pos hfd, AppendOf, Sys.print, Int.toNat_natCast, List.take_length, List.self_eq_append_right]
    · simp only [if_neg hfd, hw, callWrite, ramfsWriteOp, ofWrite_writeRes, Sys.setPos] at hfit' ⊢
      exact hh.appendOf_iff (of_decide_eq_true (Bool.and_eq_true_iff.1 hfit').2)
  | writev k fd iov =>
    have hfit' : (sysWritev (ramfsFops io) w.sys k fd iov).2.dev.fits = true := hfits _ rfl
    refine forall₂_congr fun f hf => forall_congr' fun ⟨hop, _⟩ => ?_
    unfold sysWritev at hfit' ⊢
    rw [Option.mem_def.1 hf] at hfit' ⊢
    by_cases hiov : iov = [] ∨ iovMax < iov.length
    · simp only [if_pos hiov]
      refine iff_of_true (appendOf_of_nonpos rfl (by decide)) fun hle _ b hb => ?_
      obtain rfl := hiov.resolve_right (Nat.not_lt.2 hle)
      cases hb
    · simp only [if_neg hiov] at hfit' ⊢
      have hle := Nat.le_of_not_lt (not_or.1 hiov).2
      by_cases hm : (w.sys.file f).fMode &&& fmodeWrite = 0
      · rw [writevFrom_refused hm]
        refine iff_of_true (appendOf_of_nonpos rfl ?_) fun _ hw => absurd hm hw
        dsimp only
        split
        · exact Int.le_of_lt (refusal_neg _)
        · exact Int.le_refl 0
      · rw [appendOf_writev_iff hop hm hh hfit']
        exact ⟨fun h _ _ => h, fun h => h hle hm⟩
  | _ => exact Iff.rfl

/-- The file holds its buffer, and every write so far had its room. -/
def Good (w : World (Dev τ)) : Prop := Held w.sys.dev.file ∧ w.sys.dev.fits = true

theorem Good.init (h : (machine (ramfsFops io) others NewFile).init w) : Good w := ⟨.init h.2.2.1, h.2.2.2⟩

theorem Good.step (h : Good w) (hfits : Fits io w a) (hs : step (ramfsFops io) others w a = some w') : Good w' :=
  have hkept : Kept w'.sys.dev := step_dev (P := Kept) (fun _ _ hop file d count pos hd => hd.read hop file d count pos)
    (fun _ _ hop file d buf pos hd => hd.write hop file d buf pos) (fun _ i n hd => hd.setISize i n)
    (fun _ _ _ hd he => hd.others he) (fun _ => h.1) hs
  ⟨hkept (hfits w' hs), hfits w' hs⟩

/-- **In the runs whose writes have their room, every write through a descriptor with `O_APPEND` is an append exactly when every
one of them finds its position at the end of the file.** -/
theorem appends_iff_runOk (io : Fops τ) (l : List (Label (Others τ))) (w w' : World (Dev τ))
    (h0 : (machine (ramfsFops io) others NewFile).init w) :
    (machine (ramfsFops io) others NewFile).RunOk (fun w a => Fits io w a ∧ Law io w a) w l w' ↔
      (machine (ramfsFops io) others NewFile).RunOk (fun w a => Fits io w a ∧ AtEnd w a) w l w' :=
  Machine.runOk_iff _ (I := Good) (fun _ _ hg => and_congr_right fun hfits => law_iff hg.1 hfits)
    (fun _ _ _ hg hok hs => hg.step hok.1 hs) l w w' (.init h0)

/-- The file is opened twice with `O_WRONLY | O_APPEND`. -/
def twoAppenders : List (Label (Others Unit)) := [.opn 0 (some 7) 0x401 (some 0) 0 0, .opn 0 (some 8) 0x401 (some 0) 0 0]

/-- Two appends, the second after a seek to the end. -/
theorem appends_iff_runOk_seek :
    let l := twoAppenders ++ [.write 0 0 [97, 98], .lseek 0 1 0 .seekEnd, .writev 0 1 [[], [99], [100]]]
    ∃ w', (machine (ramfsFops noFops) others NewFile).RunOk (fun w a => Fits noFops w a ∧ Law noFops w a) newWorld l w' ∧
      contents w'.sys.dev.file = [97, 98, 99, 100] := by
  intro l
  have hrun : ((machine (ramfsFops noFops) others NewFile).check (fun w a => Fits noFops w a ∧ AtEnd w a) newWorld l).map
      (fun w => contents w.sys.dev.file) = some [97, 98, 99, 100] := by decide +kernel
  obtain ⟨w', h, hc⟩ := Option.map_eq_some_iff.1 hrun
  exact ⟨w', (appends_iff_runOk noFops l newWorld w' newWorld_init).2 (Machine.runOk_of_check _ h), hc⟩

/-- Without the seek the second append is stored over the first. -/
theorem not_appends :
    let l := twoAppenders ++ [.write 0 0 [97, 98], .writev 0 1 [[99]]]
    ∃ w', (machine (ramfsFops noFops) others NewFile).init newWorld ∧
      (machine (ramfsFops noFops) others NewFile).RunOk (Fits noFops) newWorld l w' ∧
      contents w'.sys.dev.file = [99, 98] ∧
      ¬(machine (ramfsFops noFops) others NewFile).RunOk (Law noFops) newWorld l w' := by
  intro l
  have hrun : ((machine (ramfsFops noFops) others NewFile).check (Fits noFops) newWorld l).map
      (fun w => contents w.sys.dev.file) = some [99, 98] := by decide +kernel
  obtain ⟨w', h, hc⟩ := Option.map_eq_some_iff.1 hrun
  refine ⟨w', newWorld_init, Machine.runOk_of_check _ h, hc, fun hlaw => ?_⟩
  have hno : ((machine (ramfsFops noFops) others NewFile).check (Law noFops) newWorld l).isSome = false := by decide +kernel
  rw [Machine.check_of_runOk _ hlaw] at hno
  nomatch hno

end Append
end Transfer
end Pico
