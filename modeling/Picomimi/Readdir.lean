import Picomimi.Lib.Bytes
import Picomimi.Lib.ByteView
import Picomimi.Lib.Word
/-!
# Readdir — the listing of a ramfs directory, through `getdents64` and libc's `readdir`

`ramfs_readdir` (`fs/ramfs.c`) counts in `f_pos` what it has passed, `.` and `..` and then every child, the negative dentries
too; `getdents_filldir` (`kernel/fs_syscalls.c`) packs a record into the user's buffer or ends the call, and `readdir`
(`userspace/libc/libc.c`) unpacks it.  A directory is what `ramfs_readdir` reads of its dentry, and stays as it is.  Whatever
the sizes of the buffers, as long as each has room for a record, the calls give `listing` (`listed_of_roomy`).
-/
namespace Pico
namespace Readdir

open Lib

def einval : Int := 22

/-- A dentry of `d_subdirs`: its name, a C string, and `i_ino` and `i_mode` of its inode, none if it is negative. -/
structure Child where
  name : List UInt8
  noNul : 0 ∉ name
  inode : Option (UInt64 × Nat)

/-- The inode numbers of the directory and of its parent's inode, if there is one, and its children. -/
structure Directory where
  ino : UInt64
  parentIno : Option UInt64
  children : List Child

/-- `DT_REG` and the others, by the mode. -/
def dType (mode : Nat) : UInt8 :=
  match mode &&& 0xF000 with
  | 0x8000 => 8
  | 0x4000 => 4
  | 0xA000 => 10
  | 0x2000 => 2
  | 0x6000 => 6
  | 0x1000 => 1
  | 0xC000 => 12
  | _ => 0

def dtDir : UInt8 := 4

def dot : List UInt8 := [46]
def dotdot : List UInt8 := [46, 46]

/-! ## `ramfs_readdir` -/

section Ramfs

variable {σ : Type} (filldir : σ → List UInt8 → UInt64 → UInt8 → Int × σ)

/-- The walk over the children, from the one with index `childIdx` on: `f_pos` and the context after it. -/
def readChildren : List Child → Nat → Nat → σ → Nat × σ
  | [], _, fPos, ctx => (fPos, ctx)
  | c :: cs, childIdx, fPos, ctx =>
    if childIdx + 2 < fPos then readChildren cs (childIdx + 1) fPos ctx
    else
      match c.inode with
      | none => readChildren cs (childIdx + 1) (fPos + 1) ctx
      | some (ino, mode) =>
        let r := filldir ctx c.name ino (dType mode)
        if r.1 < 0 then (fPos, r.2) else readChildren cs (childIdx + 1) (fPos + 1) r.2

def ramfsReaddir (dir : Directory) (fPos : Nat) (ctx : σ) : Nat × σ :=
  let dots (fPos : Nat) (ctx : σ) : Nat × σ :=
    if fPos = 1 then
      let r := filldir ctx dotdot (dir.parentIno.getD dir.ino) dtDir
      if r.1 < 0 then (fPos, r.2) else readChildren filldir dir.children 0 2 r.2
    else readChildren filldir dir.children 0 fPos ctx
  if fPos = 0 then
    let r := filldir ctx dot dir.ino dtDir
    if r.1 < 0 then (fPos, r.2) else dots 1 r.2
  else dots fPos ctx

end Ramfs

/-! ## `getdents64` -/

/-- `getdents_ctx_t`, with the user's buffer from address 0. -/
structure Ctx where
  buf : Mem
  bufSize : Nat
  pos : Nat
  count : Nat
  error : Int

/-- `offsetof(struct linux_dirent64, d_name)`. -/
def nameOff : Nat := 19

def reclen (namelen : Nat) : Nat := alignUp (nameOff + namelen + 1) 8

def getdentsFilldir (ctx : Ctx) (name : List UInt8) (ino : UInt64) (type : UInt8) : Int × Ctx :=
  let n := reclen name.length
  if ctx.bufSize < add64 ctx.pos n then (-1, { ctx with error := -einval })
  else
    let d := ctx.pos
    (0, { ctx with
      buf := ((((ctx.buf.copy d (leBytes 8 ino.toNat)).copy (d + 8) (leBytes 8 (d + n))).copy (d + 16)
        (leBytes 2 n)).copy (d + 18) [type]).copy (d + 19) (name ++ [0])
      pos := d + n
      count := ctx.count + 1 })

structure Result where
  ret : Int
  buf : Mem
  fPos : Nat

/-- `sys_getdents64` on an open ramfs directory; `count` is a `u32`. -/
def sysGetdents64 (dir : Directory) (fPos : Nat) (buf : Mem) (count : Nat) : Result :=
  if count = 0 then ⟨-einval, buf, fPos⟩
  else
    let r := ramfsReaddir getdentsFilldir dir fPos ⟨buf, count, 0, 0, 0⟩
    ⟨if r.2.error ≠ 0 ∧ r.2.count = 0 then r.2.error else r.2.pos, r.2.buf, r.1⟩

/-! ## libc -/

/-- `dirent_t`. -/
structure Dirent where
  dIno : UInt64
  dOff : Nat
  dReclen : Nat
  dType : UInt8
  dName : List UInt8

/-- The number in the `n` bytes at `a`. -/
def number (m : Mem) (a n : Nat) : Nat := leValue (m.bytes a n)

/-- `strncpy` of 255 bytes: up to the NUL. -/
def nameAt (m : Mem) (a : Nat) : List UInt8 := (m.bytes a 255).takeWhile (· ≠ 0)

/-- The record at `a`. -/
def direntAt (m : Mem) (a : Nat) : Dirent :=
  ⟨UInt64.ofNat (number m a 8), number m (a + 8) 8, number m (a + 16) 2, m (a + 18), nameAt m (a + nameOff)⟩

/-- `DIR`. -/
structure Dir where
  buf : Mem
  bufPos : Nat
  bufLen : Nat

/-- `sizeof(d->buf)`. -/
def dirBuf : Nat := 4096

/-- The record at `buf_pos`, and the next position. -/
def takeDirent (d : Dir) : Dirent × Dir :=
  let ent := direntAt d.buf d.bufPos
  (ent, { d with bufPos := d.bufPos + ent.dReclen })

/-- `readdir`, with the `f_pos` of its descriptor before and after. -/
def readdir (dir : Directory) (fPos : Nat) (d : Dir) : Option Dirent × Nat × Dir :=
  if d.bufLen ≤ d.bufPos then
    let r := sysGetdents64 dir fPos d.buf dirBuf
    if r.ret ≤ 0 then (none, r.fPos, { d with buf := r.buf })
    else
      let t := takeDirent ⟨r.buf, 0, r.ret.toNat⟩
      (some t.1, r.fPos, t.2)
  else
    let t := takeDirent d
    (some t.1, fPos, t.2)

/-- What `n` calls of `readdir` return. -/
def readdirs (dir : Directory) : Nat → Nat → Dir → List (Option Dirent)
  | 0, _, _ => []
  | n + 1, fPos, d =>
    let r := readdir dir fPos d
    r.1 :: readdirs dir n r.2.1 r.2.2

/-! ## What a listing is -/

/-- What a record says of a child. -/
structure Entry where
  name : List UInt8
  ino : UInt64
  type : UInt8
deriving DecidableEq

def Dirent.entry (d : Dirent) : Entry := ⟨d.dName, d.dIno, d.dType⟩

/-- The positive children. -/
def positives (cs : List Child) : List Entry :=
  cs.filterMap fun c => c.inode.map fun i => ⟨c.name, i.1, dType i.2⟩

/-- **`.`, `..` and every positive child**, with its name and inode number. -/
def listing (dir : Directory) : List Entry :=
  ⟨dot, dir.ino, dtDir⟩ :: ⟨dotdot, dir.parentIno.getD dir.ino, dtDir⟩ :: positives dir.children

/-- What is still to be listed at `f_pos`. -/
def pending (dir : Directory) : Nat → List Entry
  | 0 => listing dir
  | 1 => (listing dir).tail
  | k + 2 => positives (dir.children.drop k)

/-- The records from `off` to `n`, each within the buffer. -/
def walk (m : Mem) (n : Nat) : Nat → Nat → Option (List Entry)
  | 0, _ => none
  | fuel + 1, off =>
    if off = n then some []
    else
      let d := direntAt m off
      if 0 < d.dReclen ∧ off + d.dReclen ≤ n then (walk m n fuel (off + d.dReclen)).map (d.entry :: ·) else none

/-- **The entries that the calls give, up to the one that returns 0**, and whether one did; none if a call fails or a buffer
does not hold whole records. -/
def listed (dir : Directory) : Nat → List (Mem × Nat) → Option (List Entry × Bool)
  | _, [] => some ([], false)
  | fPos, (buf, count) :: bufs =>
    let r := sysGetdents64 dir fPos buf count
    if r.ret < 0 then none
    else if r.ret = 0 then some ([], true)
    else
      (walk r.buf r.ret.toNat (r.ret.toNat + 1) 0).bind fun es =>
        (listed dir r.fPos bufs).map fun rest => (es ++ rest.1, rest.2)

/-- **Each buffer has room for the next record.** -/
def Roomy (dir : Directory) : Nat → List (Mem × Nat) → Prop
  | _, [] => True
  | fPos, (buf, count) :: bufs =>
    (0 < count ∧ count < word32 ∧ ∀ e ∈ (pending dir fPos).head?, reclen e.name.length ≤ count) ∧
      Roomy dir (sysGetdents64 dir fPos buf count).fPos bufs

instance (dir : Directory) : ∀ (fPos : Nat) (bufs : List (Mem × Nat)), Decidable (Roomy dir fPos bufs)
  | _, [] => isTrue trivial
  | fPos, (buf, count) :: bufs =>
    have := instDecidableRoomy dir (sysGetdents64 dir fPos buf count).fPos bufs
    inferInstanceAs (Decidable ((0 < count ∧ count < word32 ∧
      ∀ e ∈ (pending dir fPos).head?, reclen e.name.length ≤ count) ∧ Roomy dir _ bufs))

/-- Names of at most 255 bytes. -/
def Short (dir : Directory) : Prop := ∀ c ∈ dir.children, c.name.length ≤ 255

/-! ## Records -/

variable {m m' : Mem} {off n fPos k : Nat} {e : Entry} {es es' : List Entry} {ctx ctx₁ ctx' : Ctx} {dir : Directory}

/-- A name that fits a record, without a NUL. -/
structure Entry.Ok (e : Entry) : Prop where
  short : e.name.length ≤ 255
  noNul : 0 ∉ e.name

/-- The bytes of a record at `off`, before the padding. -/
def record (off : Nat) (e : Entry) : List UInt8 :=
  leBytes 8 e.ino.toNat ++ leBytes 8 (off + reclen e.name.length) ++ leBytes 2 (reclen e.name.length) ++ [e.type] ++
    (e.name ++ [0])

theorem record_length (off : Nat) (e : Entry) : (record off e).length = 20 + e.name.length := by
  simp only [record, List.length_append, leBytes_length, List.length_singleton]
  omega

/-- **A record has room for its bytes**, and is at most 280 bytes long. -/
theorem reclen_bounds {len : Nat} (h : len ≤ 255) : 20 + len ≤ reclen len ∧ reclen len ≤ 280 := by
  have hsum : add64 (nameOff + len + 1) (8 - 1) = len + 27 := by
    rw [add64_of_lt (by unfold nameOff word64; omega)]
    unfold nameOff
    omega
  unfold reclen alignUp
  rw [hsum]
  omega

structure RecordAt (m : Mem) (off : Nat) (e : Entry) : Prop where
  ok : e.Ok
  bytes : m.bytes off (record off e).length = record off e

/-- The name is read up to its NUL. -/
theorem nameAt_eq {name : List UInt8} {a : Nat} (h : m.bytes a name.length = name) (h0 : m (a + name.length) = 0)
    (hn : 0 ∉ name) (hlen : name.length ≤ 255) : nameAt m a = name := by
  have hall : ∀ b ∈ name, decide (b ≠ 0) = true := fun b hb => decide_eq_true fun hb0 => hn (hb0 ▸ hb)
  unfold nameAt
  rcases Nat.eq_or_lt_of_le hlen with heq | hlt
  · rw [← heq, h]
    calc name.takeWhile (· ≠ 0) = (name ++ []).takeWhile (· ≠ 0) := by rw [List.append_nil]
      _ = name ++ [].takeWhile (· ≠ 0) := List.takeWhile_append_of_pos hall
      _ = name := List.append_nil name
  · have hsplit : 255 = name.length + (1 + (254 - name.length)) := by omega
    have hone : m.bytes (a + name.length) 1 = [0] := by simp [Mem.bytes, h0]
    rw [hsplit, Mem.bytes_add, h, Mem.bytes_add, hone, List.takeWhile_append_of_pos hall]
    simp

/-- **A record is read back.** -/
theorem RecordAt.direntAt (h : RecordAt m off e) :
    (direntAt m off).entry = e ∧ (direntAt m off).dReclen = reclen e.name.length := by
  have hb := h.bytes
  have hlen : (record off e).length = 8 + (8 + (2 + (1 + (e.name.length + 1)))) := by
    rw [record_length]
    omega
  rw [hlen, record] at hb
  simp only [List.append_assoc, Mem.bytes_add] at hb
  obtain ⟨hino, hb⟩ := List.append_inj hb (by rw [Mem.bytes_length, leBytes_length])
  obtain ⟨-, hb⟩ := List.append_inj hb (by rw [Mem.bytes_length, leBytes_length])
  obtain ⟨hrec, hb⟩ := List.append_inj hb (by rw [Mem.bytes_length, leBytes_length])
  obtain ⟨htype, hb⟩ := List.append_inj hb (by rw [Mem.bytes_length, List.length_singleton])
  obtain ⟨hname, hnul⟩ := List.append_inj hb (by rw [Mem.bytes_length])
  have hnul' : m (off + 8 + 8 + 2 + 1 + e.name.length) = 0 := by simpa [Mem.bytes] using hnul
  have htype' : m (off + 8 + 8 + 2) = e.type := by simpa [Mem.bytes] using htype
  have hbound := reclen_bounds h.ok.short
  constructor
  · have hlt : e.ino.toNat < 256 ^ 8 := e.ino.toNat_lt
    have h1 : number m off 8 = e.ino.toNat := by
      rw [number, hino, leValue_leBytes, Nat.mod_eq_of_lt hlt]
    have h2 : nameAt m (off + nameOff) = e.name := nameAt_eq hname hnul' h.ok.noNul h.ok.short
    rw [Readdir.direntAt, Dirent.entry, h1, h2, UInt64.ofNat_toNat]
    exact congrArg (Entry.mk e.name e.ino) htype'
  · show number m (off + 8 + 8) 2 = _
    rw [number, hrec, leValue_leBytes, Nat.mod_eq_of_lt (by omega)]

theorem RecordAt.congr (h : RecordAt m off e) (hm : ∀ x, x < off + reclen e.name.length → m' x = m x) :
    RecordAt m' off e := by
  have hbound := (reclen_bounds h.ok.short).1
  refine ⟨h.ok, (Mem.bytes_congr fun x _ hx => hm x ?_).trans h.bytes⟩
  rw [record_length] at hx
  omega

/-- The records of `es` lie one behind the other from `off` to `n`. -/
def Records (m : Mem) : Nat → List Entry → Nat → Prop
  | off, [], n => off = n
  | off, e :: es, n => RecordAt m off e ∧ Records m (off + reclen e.name.length) es n

theorem Records.le : ∀ {es : List Entry} {off : Nat}, Records m off es n → off + es.length ≤ n
  | [], _, h => Nat.le_of_eq h
  | e :: es, off, ⟨h, hrest⟩ => by
    have hle := hrest.le
    have hbound := (reclen_bounds h.ok.short).1
    rw [List.length_cons]
    omega

theorem Records.congr (hm : ∀ x, x < n → m' x = m x) : ∀ {es : List Entry} {off : Nat}, Records m off es n → Records m' off es n
  | [], _, h => h
  | e :: es, off, ⟨h, hrest⟩ => by
    have hle := hrest.le
    exact ⟨h.congr fun x hx => hm x (by omega), Records.congr hm hrest⟩

theorem Records.append {n' : Nat} : ∀ {es : List Entry} {off : Nat}, Records m off es n → Records m n es' n' →
    Records m off (es ++ es') n'
  | [], _, h, h' => by
    cases h
    exact h'
  | _ :: _, _, ⟨h, hrest⟩, h' => ⟨h, hrest.append h'⟩

/-- **Walking the records gives the entries**, and no record crosses the end. -/
theorem Records.walk : ∀ {es : List Entry} {fuel off : Nat}, Records m off es n → es.length < fuel →
    walk m n fuel off = some es
  | _, 0, _, _, hf => absurd hf (Nat.not_lt_zero _)
  | [], fuel + 1, off, h, _ => if_pos h
  | e :: es, fuel + 1, off, ⟨h, hrest⟩, hf => by
    have hle := hrest.le
    have hbound := (reclen_bounds h.ok.short).1
    obtain ⟨hentry, hlen⟩ := h.direntAt
    have ih := hrest.walk (Nat.lt_of_succ_lt_succ hf)
    rw [Readdir.walk, if_neg (by omega)]
    dsimp only
    rw [hlen, if_pos (by omega), ih, Option.map_some, hentry]

/-! ## One call -/

/-- `ctx'` is `ctx` with the records of `es` behind what it had. -/
structure Emitted (ctx : Ctx) (es : List Entry) (ctx' : Ctx) : Prop where
  records : Records ctx'.buf ctx.pos es ctx'.pos
  below : ∀ x, x < ctx.pos → ctx'.buf x = ctx.buf x
  bufSize : ctx'.bufSize = ctx.bufSize
  fits : ctx.pos ≤ ctx.bufSize → ctx'.pos ≤ ctx.bufSize
  count : ctx'.count = ctx.count + es.length
  error : ctx'.error = ctx.error

theorem Emitted.refl (ctx : Ctx) : Emitted ctx [] ctx := ⟨rfl, fun _ _ => rfl, rfl, id, rfl, rfl⟩

theorem Emitted.trans (h : Emitted ctx es ctx₁) (h' : Emitted ctx₁ es' ctx') : Emitted ctx (es ++ es') ctx' where
  records := (h.records.congr h'.below).append h'.records
  below x hx := by
    have hle := h.records.le
    exact (h'.below x (by omega)).trans (h.below x hx)
  bufSize := h'.bufSize.trans h.bufSize
  fits hpos := by
    rw [← h.bufSize]
    exact h'.fits (h.bufSize.symm ▸ h.fits hpos)
  count := by rw [h'.count, h.count, List.length_append, Nat.add_assoc]
  error := h'.error.trans h.error

/-- **A record that fits is packed.** -/
theorem filldir_of_fits (ho : e.Ok) (hsize : ctx.bufSize < word32) (hfit : ctx.pos + reclen e.name.length ≤ ctx.bufSize) :
    ∃ ctx', getdentsFilldir ctx e.name e.ino e.type = (0, ctx') ∧ Emitted ctx [e] ctx' := by
  have hword : word32 < word64 := by decide
  have hbound := (reclen_bounds ho.short).1
  have hcopy : ((((ctx.buf.copy ctx.pos (leBytes 8 e.ino.toNat)).copy (ctx.pos + 8)
      (leBytes 8 (ctx.pos + reclen e.name.length))).copy (ctx.pos + 16) (leBytes 2 (reclen e.name.length))).copy
      (ctx.pos + 18) [e.type]).copy (ctx.pos + 19) (e.name ++ [0]) = ctx.buf.copy ctx.pos (record ctx.pos e) := by
    have h8 := leBytes_length 8 e.ino.toNat
    have h16 := leBytes_length 8 (ctx.pos + reclen e.name.length)
    have h2 := leBytes_length 2 (reclen e.name.length)
    have hfold : ∀ {l l' : List UInt8} {i : Nat}, l.length = i →
        (ctx.buf.copy ctx.pos l).copy (ctx.pos + i) l' = ctx.buf.copy ctx.pos (l ++ l') := by
      rintro l l' i rfl
      exact Mem.copy_copy ctx.buf ctx.pos l l'
    rw [hfold h8, hfold (by rw [List.length_append, h8, h16]), hfold (by simp only [List.length_append, h8, h16, h2]),
      hfold (by simp only [List.length_append, h8, h16, h2, List.length_singleton])]
    rfl
  unfold getdentsFilldir
  dsimp only
  rw [add64_of_lt (by omega), if_neg (by omega), hcopy]
  refine ⟨_, rfl, ⟨⟨⟨ho, Mem.bytes_copy _ _ _⟩, rfl⟩, fun x hx => Mem.copy_of_apart _ (.inl hx), rfl, fun _ => hfit, rfl, rfl⟩⟩

theorem filldir_of_full (ho : e.Ok) (hsize : ctx.bufSize < word32) (hpos : ctx.pos ≤ ctx.bufSize)
    (hfull : ctx.bufSize < ctx.pos + reclen e.name.length) :
    getdentsFilldir ctx e.name e.ino e.type = (-1, { ctx with error := -einval }) := by
  have hword : word32 + 280 < word64 := by decide
  have hbound := (reclen_bounds ho.short).2
  unfold getdentsFilldir
  dsimp only
  rw [add64_of_lt (by omega), if_pos hfull]

/-- Every entry of the listing fits a record. -/
theorem ok_of_mem_positives {cs : List Child} (hs : ∀ c ∈ cs, c.name.length ≤ 255) (he : e ∈ positives cs) : e.Ok := by
  obtain ⟨c, hc, hce⟩ := List.mem_filterMap.1 he
  obtain ⟨i, -, rfl⟩ := Option.map_eq_some_iff.1 hce
  exact ⟨hs c hc, c.noNul⟩

/-- **What a pass over the directory does from a context**: it packs the first of what is pending, and stops at the end or
before a record that has no room. -/
structure Passed (dir : Directory) (ctx : Ctx) (todo : List Entry) (r : Nat × Ctx) (es : List Entry) (ctx₁ : Ctx) : Prop where
  emitted : Emitted ctx es ctx₁
  split : todo = es ++ pending dir r.1
  valid : r.1 ≤ dir.children.length + 2
  stop : r.2 = ctx₁ ∧ pending dir r.1 = [] ∨
    r.2 = { ctx₁ with error := -einval } ∧ ∃ e ∈ (pending dir r.1).head?, ctx.bufSize < ctx₁.pos + reclen e.name.length

theorem Passed.cons {todo : List Entry} {r : Nat × Ctx} (hone : Emitted ctx [e] ctx') (h : Passed dir ctx' todo r es ctx₁) :
    Passed dir ctx (e :: todo) r (e :: es) ctx₁ where
  emitted := hone.trans h.emitted
  split := congrArg (e :: ·) h.split
  valid := h.valid
  stop := by
    rw [← hone.bufSize]
    exact h.stop

/-- The context is of a call, with room for what is packed. -/
structure Ctx.Ok (ctx : Ctx) : Prop where
  bufSize : ctx.bufSize < word32
  pos : ctx.pos ≤ ctx.bufSize

theorem Ctx.Ok.emitted (hc : ctx.Ok) (h : Emitted ctx es ctx') : ctx'.Ok :=
  ⟨h.bufSize ▸ hc.bufSize, h.bufSize ▸ h.fits hc.pos⟩

/-- One record: it is packed and the pass goes on, or it ends. -/
theorem Passed.step {todo : List Entry} {g : Ctx → Nat × Ctx} (ho : e.Ok) (hc : ctx.Ok) (hv : fPos ≤ dir.children.length + 2)
    (hpend : pending dir fPos = e :: todo)
    (hgo : ∀ ctx', ctx'.Ok → ∃ es ctx₁, Passed dir ctx' todo (g ctx') es ctx₁) :
    ∃ es ctx₁, Passed dir ctx (pending dir fPos)
      (if (getdentsFilldir ctx e.name e.ino e.type).1 < 0 then (fPos, (getdentsFilldir ctx e.name e.ino e.type).2)
        else g (getdentsFilldir ctx e.name e.ino e.type).2) es ctx₁ := by
  by_cases hfit : ctx.pos + reclen e.name.length ≤ ctx.bufSize
  · obtain ⟨ctx', hf, hem⟩ := filldir_of_fits ho hc.bufSize hfit
    obtain ⟨es, ctx₁, hp⟩ := hgo ctx' (hc.emitted hem)
    rw [hf, if_neg (Int.lt_irrefl 0), hpend]
    exact ⟨_, _, hp.cons hem⟩
  · have hfull := Nat.lt_of_not_le hfit
    rw [filldir_of_full ho hc.bufSize hc.pos hfull, if_pos (by decide : (-1 : Int) < 0)]
    refine ⟨[], ctx, .refl ctx, rfl, hv, .inr ⟨rfl, e, ?_, hfull⟩⟩
    rw [hpend]
    rfl

/-- **The children, from any of them on.** -/
theorem readChildren_passed (hs : Short dir) : ∀ {cs : List Child} {i fPos : Nat} {ctx : Ctx}, ctx.Ok →
    dir.children.drop i = cs → i + 2 ≤ fPos → fPos ≤ dir.children.length + 2 →
    ∃ es ctx₁, Passed dir ctx (pending dir fPos) (readChildren getdentsFilldir cs i fPos ctx) es ctx₁
  | [], i, fPos, ctx, _, hcs, hlo, hhi => by
    have hlen : dir.children.length ≤ i := List.drop_eq_nil_iff.1 hcs
    have hpos : fPos = i + 2 := by omega
    have hpend : pending dir fPos = [] := by
      rw [hpos, pending, hcs]
      rfl
    exact ⟨[], ctx, .refl ctx, rfl, hhi, .inl ⟨rfl, hpend⟩⟩
  | c :: cs, i, fPos, ctx, hc, hcs, hlo, hhi => by
    have hdrop : dir.children.drop (i + 1) = cs := by
      rw [← List.drop_drop, hcs]
      rfl
    have hlt : i < dir.children.length := by
      by_contra hge
      rw [List.drop_eq_nil_iff.2 (Nat.le_of_not_lt hge)] at hcs
      cases hcs
    rw [readChildren]
    by_cases hskip : i + 2 < fPos
    · rw [if_pos hskip]
      exact readChildren_passed hs hc hdrop hskip hhi
    · have hpos : fPos = i + 2 := by omega
      have hnext : pending dir (fPos + 1) = positives cs := by
        rw [hpos, ← hdrop]
        rfl
      rw [if_neg hskip]
      have hrest : ∀ ctx' : Ctx, ctx'.Ok → ∃ es ctx₁,
          Passed dir ctx' (pending dir (fPos + 1)) (readChildren getdentsFilldir cs (i + 1) (fPos + 1) ctx') es ctx₁ :=
        fun ctx' hc' => readChildren_passed hs hc' hdrop (by omega) (by omega)
      cases hino : c.inode with
      | none =>
        have hpend : pending dir fPos = pending dir (fPos + 1) := by
          rw [hnext, hpos, pending, hcs, positives, List.filterMap_cons, hino]
          rfl
        rw [hpend]
        exact hrest ctx hc
      | some v =>
        obtain ⟨ino, mode⟩ := v
        have hpend : pending dir fPos = ⟨c.name, ino, dType mode⟩ :: pending dir (fPos + 1) := by
          rw [hnext, hpos, pending, hcs, positives, List.filterMap_cons, hino]
          rfl
        have hmem : (⟨c.name, ino, dType mode⟩ : Entry) ∈ positives dir.children :=
          List.mem_filterMap.2 ⟨c, List.mem_of_mem_drop (hcs ▸ List.mem_cons_self), by rw [hino]; rfl⟩
        exact Passed.step (e := ⟨c.name, ino, dType mode⟩)
          (g := fun ctx' => readChildren getdentsFilldir cs (i + 1) (fPos + 1) ctx') (ok_of_mem_positives hs hmem) hc hhi
          hpend hrest

/-- **A pass over the directory.** -/
theorem ramfsReaddir_passed (hs : Short dir) (hc : ctx.Ok) (hv : fPos ≤ dir.children.length + 2) :
    ∃ es ctx₁, Passed dir ctx (pending dir fPos) (ramfsReaddir getdentsFilldir dir fPos ctx) es ctx₁ := by
  have hchildren : ∀ {fPos : Nat} {ctx : Ctx}, ctx.Ok → 2 ≤ fPos → fPos ≤ dir.children.length + 2 →
      ∃ es ctx₁, Passed dir ctx (pending dir fPos) (readChildren getdentsFilldir dir.children 0 fPos ctx) es ctx₁ :=
    fun hc' hlo hhi => readChildren_passed hs hc' rfl hlo hhi
  have hdotdot : ∀ {ctx : Ctx}, ctx.Ok → ∃ es ctx₁, Passed dir ctx (pending dir 1)
      (if (getdentsFilldir ctx dotdot (dir.parentIno.getD dir.ino) dtDir).1 < 0 then
          (1, (getdentsFilldir ctx dotdot (dir.parentIno.getD dir.ino) dtDir).2)
        else readChildren getdentsFilldir dir.children 0 2
          (getdentsFilldir ctx dotdot (dir.parentIno.getD dir.ino) dtDir).2) es ctx₁ := by
    intro ctx hc'
    exact Passed.step (e := ⟨dotdot, dir.parentIno.getD dir.ino, dtDir⟩)
      (g := fun ctx' => readChildren getdentsFilldir dir.children 0 2 ctx')
      ⟨(by decide : dotdot.length ≤ 255), (by decide : 0 ∉ dotdot)⟩ hc' (by omega) rfl
      fun ctx' hc'' => hchildren hc'' (Nat.le_refl 2) (by omega)
  unfold ramfsReaddir
  dsimp only
  by_cases h0 : fPos = 0
  · subst h0
    rw [if_pos rfl]
    exact Passed.step (e := ⟨dot, dir.ino, dtDir⟩) ⟨(by decide : dot.length ≤ 255), (by decide : 0 ∉ dot)⟩ hc (by omega) rfl
      fun ctx' hc' => hdotdot hc'
  · rw [if_neg h0]
    by_cases h1 : fPos = 1
    · subst h1
      rw [if_pos rfl]
      exact hdotdot hc
    · rw [if_neg h1]
      exact hchildren hc (by omega) hv

/-- **What a call with room for the next record gives**: the first of the entries that are pending, and all the others stay
pending; none are given only when none are left. -/
structure Given (dir : Directory) (fPos : Nat) (r : Result) (es : List Entry) (n : Nat) : Prop where
  ret : r.ret = n
  records : Records r.buf 0 es n
  split : pending dir fPos = es ++ pending dir r.fPos
  valid : r.fPos ≤ dir.children.length + 2
  last : es = [] → pending dir fPos = []

theorem given_of_room (hs : Short dir) (buf : Mem) {count : Nat} (h0 : 0 < count) (hcount : count < word32)
    (hv : fPos ≤ dir.children.length + 2) (hroom : ∀ e ∈ (pending dir fPos).head?, reclen e.name.length ≤ count) :
    ∃ es n, Given dir fPos (sysGetdents64 dir fPos buf count) es n := by
  obtain ⟨es, ctx₁, hp⟩ := ramfsReaddir_passed hs (show Ctx.Ok ⟨buf, count, 0, 0, 0⟩ from ⟨hcount, Nat.zero_le _⟩) hv
  unfold sysGetdents64
  rw [if_neg (Nat.pos_iff_ne_zero.1 h0)]
  dsimp only
  have hrec : Records ctx₁.buf 0 es ctx₁.pos := hp.emitted.records
  have hcnt : ctx₁.count = es.length := hp.emitted.count.trans (Nat.zero_add _)
  have herr : ctx₁.error = 0 := hp.emitted.error
  rcases hp.stop with ⟨hr, hend⟩ | ⟨hr, e, he, hfull⟩
  · refine ⟨es, ctx₁.pos, ?_, hr ▸ hrec, hp.split, hp.valid, fun hnil => ?_⟩
    · rw [hr, if_neg (fun hc => hc.1 herr)]
    · rw [hp.split, hnil, hend]
      rfl
  · have hsome : es ≠ [] := by
      rintro rfl
      rw [hp.split] at hroom
      have hpos : ctx₁.pos = 0 := hrec.symm
      have hle := hroom e he
      rw [hpos, Nat.zero_add] at hfull
      exact absurd hle (Nat.not_le.2 hfull)
    have hne : ¬es.length = 0 := fun hz => hsome (List.eq_nil_of_length_eq_zero hz)
    refine ⟨es, ctx₁.pos, ?_, by rw [hr]; exact hrec, hp.split, hp.valid, fun hnil => absurd hnil hsome⟩
    rw [hr, if_neg (fun hc => hne (hcnt ▸ hc.2))]

/-! ## The calls one after another -/

/-- What the calls are to give, from any position on. -/
theorem listed_pending (hs : Short dir) : ∀ {bufs : List (Mem × Nat)} {fPos : Nat}, fPos ≤ dir.children.length + 2 →
    Roomy dir fPos bufs → ∃ es ended, listed dir fPos bufs = some (es, ended) ∧ es <+: pending dir fPos ∧
      (ended = true → es = pending dir fPos) ∧ ((pending dir fPos).length < bufs.length → ended = true)
  | [], _, _, _ => ⟨[], false, rfl, List.nil_prefix, nofun, fun h => absurd h (Nat.not_lt_zero _)⟩
  | (buf, count) :: bufs, fPos, hv, ⟨⟨h0, hcount, hroom⟩, hrest⟩ => by
    obtain ⟨es, n, hg⟩ := given_of_room hs buf h0 hcount hv hroom
    obtain ⟨rest, ended, hl, hpre, hend, hlong⟩ := listed_pending hs hg.valid hrest
    rw [listed]
    rw [hg.ret, if_neg (Int.not_lt.2 (Int.natCast_nonneg n))]
    by_cases hn : n = 0
    · -- nothing was given, so nothing is left
      have hnil : es = [] := by
        have hle := hg.records.le
        exact List.eq_nil_of_length_eq_zero (by omega)
      have hdone := hg.last hnil
      rw [if_pos (by rw [hn]; rfl), hdone]
      exact ⟨[], true, rfl, List.nil_prefix, fun _ => rfl, fun _ => rfl⟩
    · have hne : es ≠ [] := by
        rintro rfl
        exact hn hg.records.symm
      have hwalk : walk (sysGetdents64 dir fPos buf count).buf n (n + 1) 0 = some es := by
        have hle := hg.records.le
        exact hg.records.walk (by omega)
      have hret : ¬(n : Int) = 0 := by omega
      rw [if_neg hret, Int.toNat_natCast, hwalk, Option.bind_some, hl, Option.map_some, hg.split]
      refine ⟨_, _, rfl, (List.prefix_append_right_inj es).2 hpre, fun h => congrArg (es ++ ·) (hend h), fun h => hlong ?_⟩
      have hpos := List.length_pos_iff.2 hne
      rw [List.length_append, List.length_cons] at h
      omega

/-! ## `readdir` -/

/-- The records in the buffer of a `DIR`, from `buf_pos` on. -/
def Buffered (d : Dir) (es : List Entry) : Prop := Records d.buf d.bufPos es d.bufLen

theorem takeDirent_of {d : Dir} (h : Buffered d (e :: es)) :
    (takeDirent d).1.entry = e ∧ Buffered (takeDirent d).2 es := by
  obtain ⟨hrec, hrest⟩ := h
  obtain ⟨hentry, hlen⟩ := hrec.direntAt
  refine ⟨hentry, ?_⟩
  show Records d.buf (d.bufPos + (direntAt d.buf d.bufPos).dReclen) es d.bufLen
  rw [hlen]
  exact hrest

/-- The buffer of libc has room for any record. -/
theorem given_dirBuf (hs : Short dir) (hv : fPos ≤ dir.children.length + 2) (buf : Mem) :
    ∃ es n, Given dir fPos (sysGetdents64 dir fPos buf dirBuf) es n := by
  refine given_of_room hs _ (by decide) (by decide) hv fun e he => ?_
  have hmem : e ∈ listing dir := by
    have hin := List.mem_of_mem_head? he
    match fPos, hin with
    | 0, hin => exact hin
    | 1, hin => exact List.mem_of_mem_tail hin
    | k + 2, hin =>
      refine List.mem_cons_of_mem _ (List.mem_cons_of_mem _ ?_)
      exact (List.Sublist.filterMap _ (List.drop_sublist k dir.children)).subset hin
  have hok : e.Ok := by
    rcases List.mem_cons.1 hmem with rfl | hmem
    · exact ⟨(by decide : dot.length ≤ 255), (by decide : 0 ∉ dot)⟩
    rcases List.mem_cons.1 hmem with rfl | hmem
    · exact ⟨(by decide : dotdot.length ≤ 255), (by decide : 0 ∉ dotdot)⟩
    · exact ok_of_mem_positives hs hmem
  exact Nat.le_trans (reclen_bounds hok.short).2 (by decide)

/-- **One `readdir`**: the next entry, or `NULL` when there is none. -/
theorem readdir_next (hs : Short dir) {d : Dir} (hv : fPos ≤ dir.children.length + 2) (hb : Buffered d es) :
    match es ++ pending dir fPos with
    | [] => (readdir dir fPos d).1 = none
    | e :: todo => ∃ ent fPos' d' es', readdir dir fPos d = (some ent, fPos', d') ∧ ent.entry = e ∧ Buffered d' es' ∧
        fPos' ≤ dir.children.length + 2 ∧ todo = es' ++ pending dir fPos' := by
  have hle := Records.le hb
  cases es with
  | cons e es =>
    obtain ⟨hentry, hrest⟩ := takeDirent_of hb
    have hfull : ¬d.bufLen ≤ d.bufPos := by
      rw [List.length_cons] at hle
      omega
    refine ⟨_, _, _, es, ?_, hentry, hrest, hv, rfl⟩
    exact if_neg hfull
  | nil =>
    have hempty : d.bufLen ≤ d.bufPos := Nat.le_of_eq (Eq.symm hb)
    obtain ⟨es, n, hg⟩ := given_dirBuf hs hv d.buf
    rw [List.nil_append, hg.split]
    unfold readdir
    dsimp only
    rw [if_pos hempty, hg.ret]
    cases es with
    | nil =>
      have hzero : n = 0 := Eq.symm hg.records
      have hdone : pending dir (sysGetdents64 dir fPos d.buf dirBuf).fPos = [] := by
        rw [← List.nil_append (pending dir (sysGetdents64 dir fPos d.buf dirBuf).fPos), ← hg.split]
        exact hg.last rfl
      rw [List.nil_append, hdone, if_pos (by rw [hzero]; exact Int.le_refl 0)]
    | cons e es =>
      have hpos : 0 < n := by
        have hlen := hg.records.le
        rw [List.length_cons] at hlen
        omega
      have hfresh : Buffered ⟨(sysGetdents64 dir fPos d.buf dirBuf).buf, 0, n⟩ (e :: es) := hg.records
      obtain ⟨hentry, hrest⟩ := takeDirent_of hfresh
      rw [if_neg (Int.not_le.2 (Int.natCast_pos.2 hpos)), Int.toNat_natCast]
      exact ⟨_, _, _, es, rfl, hentry, hrest, hg.valid, rfl⟩

/-- **`readdir` until it returns `NULL`.** -/
theorem readdirs_eq (hs : Short dir) : ∀ {todo es : List Entry} {fPos : Nat} {d : Dir}, fPos ≤ dir.children.length + 2 →
    Buffered d es → es ++ pending dir fPos = todo →
    (readdirs dir (todo.length + 1) fPos d).map (Option.map Dirent.entry) = todo.map some ++ [none]
  | [], es, fPos, d, hv, hb, htodo => by
    have hnext := readdir_next hs hv hb
    rw [htodo] at hnext
    have hone : readdirs dir 1 fPos d = [(readdir dir fPos d).1] := rfl
    rw [List.length_nil, hone, hnext]
    rfl
  | e :: todo, es, fPos, d, hv, hb, htodo => by
    have hnext := readdir_next hs hv hb
    rw [htodo] at hnext
    obtain ⟨ent, fPos', d', es', hr, hentry, hb', hv', htodo'⟩ := hnext
    have ih := readdirs_eq hs hv' hb' htodo'.symm
    rw [List.length_cons, readdirs, hr, List.map_cons, ih, Option.map_some, hentry]
    rfl

/-- A `DIR` that `opendir` made. -/
def newDir (buf : Mem) : Dir := ⟨buf, 0, 0⟩

/-- **A directory is listed once and completely**: calls with room for the next record each give the next of the entries, in
whole records, the call that returns 0 comes when all were given, and it comes; and `readdir` returns the same sequence, and
then `NULL`. -/
theorem listed_of_roomy (dir : Directory) (hs : Short dir) :
    (∀ bufs, Roomy dir 0 bufs → ∃ es ended, listed dir 0 bufs = some (es, ended) ∧ es <+: listing dir ∧
      (ended = true → es = listing dir) ∧ ((listing dir).length < bufs.length → ended = true)) ∧
    ∀ buf, (readdirs dir ((listing dir).length + 1) 0 (newDir buf)).map (Option.map Dirent.entry) =
      (listing dir).map some ++ [none] := by
  refine ⟨fun bufs hroom => listed_pending hs (Nat.zero_le _) hroom, fun buf => ?_⟩
  exact readdirs_eq hs (Nat.zero_le _) (show Buffered (newDir buf) [] from rfl) rfl

/-- A file, a negative dentry and a link. -/
def threeChildren : Directory :=
  ⟨7, some 1, [⟨[102], by decide, some (9, 0x81A4)⟩, ⟨[103, 104], by decide, none⟩, ⟨[105], by decide, some (8, 0xA1FF)⟩]⟩

/-- Four calls, with buffers for two records, one, one and any. -/
theorem listed_of_roomy_three : ∃ es ended,
    listed threeChildren 0 [(fun _ => 0, 48), (fun _ => 1, 24), (fun _ => 2, 47), (fun _ => 3, 1)] = some (es, ended) ∧
      es <+: listing threeChildren ∧ (ended = true → es = listing threeChildren) ∧
      ((listing threeChildren).length < 4 → ended = true) :=
  (listed_of_roomy threeChildren (by unfold Short threeChildren; decide)).1 _ (by decide +kernel)

end Readdir
end Pico
