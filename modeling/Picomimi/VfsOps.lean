import Picomimi.Vfs
/-!
# VfsOps — the file-system calls: `fs/vfs_ops.c`, `filp_open`, `do_mount`

A call takes the path as its user wrote it.  No `inode_operations` of the source has `link` or `rename`, so of these two
only the generic bodies run.  A device's `open` (`devfs_open`) always returns 0.
-/
namespace Pico
namespace Vfs

def oAccmode : Nat := 3
def oRdonly : Nat := 0
def oCreat : Nat := 0x40
def oDirectory : Nat := 0x10000

/-! ## `vfs_*` -/

def vfsMkdir (s : Fs) (dir : Option Nat) (d mode : Nat) : Int × Fs :=
  match dir with
  | none => (-einval, s)
  | some dir =>
    if ¬isRamfsDir s (some dir) then (-eperm, s)
    else
      match ramfsMkdir s dir d (mode ||| sIfdir) with
      | (0, s) =>
        let s := match s.inode d with
          | some i => s.setInode i { s.inodes i with iNlink := 2 }
          | none => s
        (0, incNlink s dir)
      | (err, s) => (err, s)

def vfsRmdir (s : Fs) (dir : Option Nat) (d : Nat) : Int × Fs :=
  match dir, s.inode d with
  | none, _ => (-einval, s)
  | _, none => (-enoent, s)
  | some dir, some i =>
    if ¬sIsdir (s.inodes i).iMode then (-enotdir, s)
    else if s.subdirs d ≠ [] then (-enotempty, s)
    else if isRamfsDir s (some dir) then ramfsRmdir s dir d i
    else (0, dropNlink (listDelInit s d) i)

def vfsUnlink (s : Fs) (dir : Option Nat) (d : Nat) : Int × Fs :=
  match dir, s.inode d with
  | none, _ => (-einval, s)
  | _, none => (-enoent, s)
  | some dir, some i =>
    if sIsdir (s.inodes i).iMode then (-eisdir, s)
    else if isRamfsDir s (some dir) then ramfsUnlink s i
    else (0, dropNlink (listDelInit s d) i)

def vfsLink (s : Fs) (oldD : Nat) (newDir : Option Nat) (newD : Nat) : Int × Fs :=
  match s.inode oldD, newDir with
  | some i, some _ =>
    if sIsdir (s.inodes i).iMode then (-eperm, s) else (0, incNlink (dInstantiate s newD (some i)) i)
  | _, _ => (-einval, s)

def vfsSymlink (s : Fs) (dir : Option Nat) (d : Nat) (oldname : Name) : Int × Fs :=
  match dir with
  | none => (-einval, s)
  | some dir =>
    if isRamfsDir s (some dir) then ramfsSymlink s d oldname
    else
      match newInode s with
      | (none, s) => (-enomem, s)
      | (some i, s) =>
        let s := { s.setInode i ⟨sIflnk ||| 0x1FF, s.vfsSymlinkIno, 1, 0, 0, .none, .none, .null⟩ with
          vfsSymlinkIno := s.vfsSymlinkIno + 1 }
        match kmallocOk s with
        | (false, s) => (-enomem, s)
        | (true, s) =>
          (0, dInstantiate (s.setInode i { s.inodes i with iPrivate := .link oldname, iSize := oldname.length }) d (some i))

def vfsRename (s : Fs) (oldDir : Option Nat) (oldD : Nat) (newDir : Option Nat) (newD : Nat) : Int × Fs :=
  match oldDir, newDir, s.inode oldD with
  | some _, some _, some _ =>
    let s := match s.inode newD with
      | some i => dropNlink (listDelInit s newD) i
      | none => s
    let s := listDelInit s oldD
    (0, s.setDentry oldD { s.dentries oldD with dName := s.name newD })
  | some _, some _, none => (-enoent, s)
  | _, _, _ => (-einval, s)

def vfsMknod (s : Fs) (dir : Option Nat) (d mode dev : Nat) : Int × Fs :=
  match dir with
  | none => (-einval, s)
  | some dir =>
    if isRamfsDir s (some dir) then ramfsMknod s d mode dev
    else
      match newInode s with
      | (none, s) => (-enomem, s)
      | (some i, s) =>
        let s := s.setInode i ⟨mode, s.vfsMknodIno, 1, dev, 0, .none, .none, .null⟩
        (0, dInstantiate { s with vfsMknodIno := s.vfsMknodIno + 1 } d (some i))

/-! ## The calls that take a path -/

/-- What the makers of a name share: the parent of the last component, the name after the last slash, no entry of that name
in the parent, a new dentry for it, and then `make` on the parent's inode. -/
def withNewDentry (s : Fs) (path : List Char) (make : Fs → Option Nat → Nat → Int × Fs) : Int × Fs :=
  match kernPath s path lookupParent with
  | (.error e, s) => (e, s)
  | (.ok parent, s) =>
    match dLookup s parent (baseName path) with
    | some _ => (-eexist, s)
    | none =>
      match dAlloc s parent (baseName path) with
      | (none, s) => (-enomem, s)
      | (some d, s) => make s (s.inode parent) d

/-- `sys_mkdir` alone refuses a path that ends in a slash. -/
def sysMkdir (s : Fs) (path : List Char) (mode : Nat) : Int × Fs :=
  match kernPath s path lookupParent with
  | (.error e, s) => (e, s)
  | (.ok parent, s) =>
    if baseName path = [] then (-enoent, s)
    else
      match dLookup s parent (baseName path) with
      | some _ => (-eexist, s)
      | none =>
        match dAlloc s parent (baseName path) with
        | (none, s) => (-enomem, s)
        | (some d, s) => vfsMkdir s (s.inode parent) d mode

def sysMknod (s : Fs) (path : List Char) (mode dev : Nat) : Int × Fs :=
  withNewDentry s path fun s dir d => vfsMknod s dir d mode dev

def sysSymlink (s : Fs) (target path : List Char) : Int × Fs :=
  withNewDentry s path fun s dir d => vfsSymlink s dir d target

/-- `sys_link` does not ask whether the new name exists. -/
def sysLink (s : Fs) (oldpath newpath : List Char) : Int × Fs :=
  match kernPath s oldpath lookupFollow with
  | (.error e, s) => (e, s)
  | (.ok oldD, s) =>
    match kernPath s newpath lookupParent with
    | (.error e, s) => (e, s)
    | (.ok parent, s) =>
      match dAlloc s parent (baseName newpath) with
      | (none, s) => (-enomem, s)
      | (some d, s) => vfsLink s oldD (s.inode parent) d

def sysRename (s : Fs) (oldpath newpath : List Char) : Int × Fs :=
  match kernPath s oldpath lookupNone with
  | (.error e, s) => (e, s)
  | (.ok oldD, s) =>
    match kernPath s newpath lookupParent with
    | (.error e, s) => (e, s)
    | (.ok parent, s) =>
      match dAlloc s parent (baseName newpath) with
      | (none, s) => (-enomem, s)
      | (some d, s) => vfsRename s (s.inode (s.parent oldD)) oldD (s.inode parent) d

def sysUnlink (s : Fs) (path : List Char) : Int × Fs :=
  match kernPath s path lookupNone with
  | (.error e, s) => (e, s)
  | (.ok d, s) => vfsUnlink s (s.inode (s.parent d)) d

def sysRmdir (s : Fs) (path : List Char) : Int × Fs :=
  match kernPath s path lookupNone with
  | (.error e, s) => (e, s)
  | (.ok d, s) => if s.inode d = none then (-enoent, s) else vfsRmdir s (s.inode (s.parent d)) d

/-- `sys_stat`: the inode its answer is filled from. -/
def sysStat (s : Fs) (path : List Char) : Except Int Inode × Fs :=
  match kernPath s path lookupFollow with
  | (.error _, s) => (.error (-enoent), s)
  | (.ok d, s) =>
    match s.inode d with
    | none => (.error (-enoent), s)
    | some i => (.ok (s.inodes i), s)

/-- `sys_access`, for a caller whose `euid` is 0 or not. -/
def sysAccess (s : Fs) (root : Bool) (path : List Char) (mode : Nat) : Int × Fs :=
  match kernPath s path lookupFollow with
  | (.error e, s) => (e, s)
  | (.ok d, s) =>
    match s.inode d with
    | none => (-enoent, s)
    | some i =>
      if mode = 0 ∨ root then (0, s)
      else
        let denied (want bit : Nat) : Bool := mode &&& want ≠ 0 ∧ (s.inodes i).iMode &&& bit = 0
        (if denied 4 4 ∨ denied 2 2 ∨ denied 1 1 then -eacces else 0, s)

/-! ## `filp_open` -/

structure File where
  fDentry : Nat
  fInode : Nat
  fFlags : Nat
  fMode : Nat
  fOp : IFop
deriving DecidableEq

/-- The text before the last slash; empty when that slash is the first character, or there is none. -/
def dirName (path : List Char) : List Char := (path.reverse.dropWhile (· ≠ '/')).tail.reverse

def fMode (flags : Nat) : Nat :=
  if flags &&& oAccmode = oRdonly then 1 else if flags &&& oAccmode = 1 then 2 else 3

/-- The second half of `filp_open`: the file of a dentry that was found. -/
def openDentry (s : Fs) (d flags : Nat) : Except Int File × Fs :=
  match s.inode d with
  | none => (.error (-enoent), s)
  | some i =>
    if sIsdir (s.inodes i).iMode ∧ flags &&& oDirectory = 0 ∧ flags &&& oAccmode ≠ oRdonly then (.error (-eisdir), s)
    else
      match kmallocOk s with
      | (false, s) => (.error (-enomem), s)
      | (true, s) => (.ok ⟨d, i, flags, fMode flags, (s.inodes i).iFop⟩, s)

/-- The directory `O_CREAT` makes the file in. -/
def createParent (s : Fs) (path : List Char) : Except Int Nat × Fs :=
  if dirName path = [] then (.ok s.rootDentry, s)
  else if 512 ≤ (dirName path).length then (.error (-enametoolong), s)
  else kernPath s (dirName path) lookupFollow

/-- `O_CREAT` for a path whose lookup has failed. -/
def openCreate (s : Fs) (path : List Char) (flags mode : Nat) : Except Int File × Fs :=
  match createParent s path with
  | (.error e, s) => (.error e, s)
  | (.ok parent, s) =>
    if s.inode parent = none then (.error (-enoent), s)
    else if ¬isRamfsDir s (s.inode parent) then (.error (-eacces), s)
    else
      match dAlloc s parent (baseName path) with
      | (none, s) => (.error (-enomem), s)
      | (some d, s) =>
        match ramfsCreate s d (mode ||| 0x1A4) with
        | (0, s) =>
          match kernPath s path lookupFollow with
          | (.error e, s) => (.error e, s)
          | (.ok d, s) => openDentry s d flags
        | (err, s) => (.error err, s)

def filpOpen (s : Fs) (path : List Char) (flags mode : Nat) : Except Int File × Fs :=
  match kernPath s path lookupFollow with
  | (.error e, s) => if e = -enoent ∧ flags &&& oCreat ≠ 0 then openCreate s path flags mode else (.error e, s)
  | (.ok d, s) => openDentry s d flags

/-! ## `do_mount` of a ramfs -/

def maxMounts : Nat := 256

/-- `ramfs_mount`: a superblock, a root inode and its dentry, which is its own parent. -/
def ramfsMount (s : Fs) : Option Nat × Fs :=
  match kmallocOk s with
  | (false, s) => (none, s)
  | (true, s) =>
    match newInode s with
    | (none, s) => (none, s)
    | (some i, s) =>
      let s := s.setInode i ⟨sIfdir ||| 0x1ED, 1, 2, 0, 0, .ramfsDir, .ramfsDir, .null⟩
      match kmallocOk s with
      | (false, s) => (none, s)
      | (true, s) =>
        let d := s.nrDentry
        (some d, { s.setDentry d ⟨['/'], d, some i, []⟩ with nrDentry := d + 1 })

/-- `do_mount` once there is a root; the root's own mount, which has no mountpoint, is not in the table but counts. -/
def doMount (s : Fs) (path : List Char) : Int × Fs :=
  match kernPath s path lookupFollow with
  | (.error e, s) => (e, s)
  | (.ok mountpoint, s) =>
    match ramfsMount s with
    | (none, s) => (-enomem, s)
    | (some root, s) =>
      match kmallocOk s with
      | (false, s) => (-enomem, s)
      | (true, s) =>
        (0, if s.mountTable.length + 1 < maxMounts then { s with mountTable := s.mountTable ++ [(mountpoint, root)] } else s)

/-- The file system `init_rootfs` mounts, with the answers the allocator will give. -/
def rootfs (kmalloc : List Bool) : Fs where
  dentries := fun _ => ⟨['/'], 0, some 0, []⟩
  nrDentry := 1
  inodes := fun _ => ⟨sIfdir ||| 0x1ED, 1, 2, 0, 0, .ramfsDir, .ramfsDir, .null⟩
  nrInode := 1
  rootDentry := 0
  mountTable := []
  createIno := 2
  mkdirIno := 2
  mknodIno := 2
  symlinkIno := 2
  vfsSymlinkIno := 0x8000
  vfsMknodIno := 0xA000
  kmalloc := kmalloc

end Vfs
end Pico
