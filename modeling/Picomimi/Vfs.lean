import Mathlib.Data.List.Basic
import Mathlib.Logic.Function.Basic
/-!
# Vfs — dentries, inodes and path resolution: `fs/vfs.c` and `fs/ramfs.c`

Dentries and inodes are numbered in the order of their allocation and never freed; a directory's `d_subdirs` is the list of
its children, the newest first.  Names are lists of characters without `/`; a loop over the components of a path is a
recursion on `components`.  `kmalloc` is the answers of the allocator to come, success when there are no more of them.  The
directories are those of ramfs (devfs makes its nodes in one) and the ones without operations that `mknod` makes; procfs and
sysfs, whose `lookup` makes its entries up, are not modelled, nor are reference counts and times, which nothing here reads.
-/
namespace Pico
namespace Vfs

def eperm : Int := 1
def enoent : Int := 2
def enomem : Int := 12
def eacces : Int := 13
def eexist : Int := 17
def enotdir : Int := 20
def eisdir : Int := 21
def einval : Int := 22
def enametoolong : Int := 36
def enotempty : Int := 39
def eloop : Int := 40

def sIfmt : Nat := 0xF000
def sIfdir : Nat := 0x4000
def sIfreg : Nat := 0x8000
def sIflnk : Nat := 0xA000

def sIsdir (mode : Nat) : Bool := mode &&& sIfmt == sIfdir
def sIslnk (mode : Nat) : Bool := mode &&& sIfmt == sIflnk

abbrev Name := List Char

/-- `inode->i_op`: `NULL`, or `ramfs_dir_inode_ops` (lookup, create, mkdir, rmdir, unlink, mknod, symlink). -/
inductive IOp where
  | none
  | ramfsDir
deriving DecidableEq

/-- `inode->i_fop`; of these only a device's has an `open`. -/
inductive IFop where
  | none
  | ramfsFile
  | ramfsDir
  | chrdev
deriving DecidableEq

/-- `inode->i_private`. -/
inductive Private where
  | null
  | link (target : Name)
  | ramfs
deriving DecidableEq

structure Inode where
  iMode : Nat
  iIno : Nat
  iNlink : Nat
  iRdev : Nat
  iSize : Nat
  iOp : IOp
  iFop : IFop
  iPrivate : Private
deriving DecidableEq

structure Dentry where
  dName : Name
  dParent : Nat
  dInode : Option Nat
  dSubdirs : List Nat
deriving DecidableEq

structure Fs where
  dentries : Nat → Dentry
  nrDentry : Nat
  inodes : Nat → Inode
  nrInode : Nat
  rootDentry : Nat
  mountTable : List (Nat × Nat)      -- mnt_mountpoint, mnt_root
  createIno : Nat                    -- the static next_ino of each maker of inodes
  mkdirIno : Nat
  mknodIno : Nat
  symlinkIno : Nat
  vfsSymlinkIno : Nat
  vfsMknodIno : Nat
  kmalloc : List Bool

namespace Fs

variable (s : Fs)

def setDentry (d : Nat) (v : Dentry) : Fs := { s with dentries := Function.update s.dentries d v }

def setInode (i : Nat) (v : Inode) : Fs := { s with inodes := Function.update s.inodes i v }

def subdirs (d : Nat) : List Nat := (s.dentries d).dSubdirs

def parent (d : Nat) : Nat := (s.dentries d).dParent

/-- `d->d_inode`, `none` for a negative dentry. -/
def inode (d : Nat) : Option Nat := (s.dentries d).dInode

def name (d : Nat) : Name := (s.dentries d).dName

end Fs

/-- One answer of `kmalloc`. -/
def kmallocOk (s : Fs) : Bool × Fs :=
  match s.kmalloc with
  | [] => (true, s)
  | b :: l => (b, { s with kmalloc := l })

/-! ## Inodes and dentries -/

def blankInode : Inode := ⟨0, 0, 0, 0, 0, .none, .none, .null⟩

def newInode (s : Fs) : Option Nat × Fs :=
  match kmallocOk s with
  | (false, s) => (none, s)
  | (true, s) => (some s.nrInode, { s.setInode s.nrInode blankInode with nrInode := s.nrInode + 1 })

def dropNlink (s : Fs) (i : Nat) : Fs := s.setInode i { s.inodes i with iNlink := (s.inodes i).iNlink - 1 }

def incNlink (s : Fs) (i : Nat) : Fs := s.setInode i { s.inodes i with iNlink := ((s.inodes i).iNlink + 1) % 4294967296 }

/-- `sizeof(dentry->d_iname)`. -/
def dInameSize : Nat := 32

/-- The name of a dentry fits inline or is allocated. -/
def allocName (s : Fs) (name : Name) : Bool × Fs := if name.length < dInameSize then (true, s) else kmallocOk s

/-- A negative dentry, the first in its parent's list. -/
def dAlloc (s : Fs) (parent : Nat) (name : Name) : Option Nat × Fs :=
  match kmallocOk s with
  | (false, s) => (none, s)
  | (true, s) =>
    match allocName s name with
    | (false, s) => (none, s)
    | (true, s) =>
      let d := s.nrDentry
      let s := { s.setDentry d ⟨name, parent, none, []⟩ with nrDentry := d + 1 }
      (some d, s.setDentry parent { s.dentries parent with dSubdirs := d :: s.subdirs parent })

def dInstantiate (s : Fs) (d : Nat) (i : Option Nat) : Fs := s.setDentry d { s.dentries d with dInode := i }

/-- `list_del_init(&d->d_child)`. -/
def listDelInit (s : Fs) (d : Nat) : Fs :=
  s.setDentry (s.parent d) { s.dentries (s.parent d) with dSubdirs := (s.subdirs (s.parent d)).erase d }

def dLookup (s : Fs) (parent : Nat) (name : Name) : Option Nat := (s.subdirs parent).find? fun c => s.name c = name

/-- Does the inode `i` (`none` is `NULL`) have the operations of a ramfs directory? -/
def isRamfsDir (s : Fs) (i : Option Nat) : Bool := i.any fun i => (s.inodes i).iOp = .ramfsDir

/-! ## Path resolution -/

def components (path : List Char) : List Name := (path.splitOn '/').filter fun n => !n.isEmpty

/-- `ramfs_lookup`: the dentry stays negative. -/
def ramfsLookup (s : Fs) (d : Nat) : Fs := dInstantiate s d none

def lookupOne (s : Fs) (dir : Nat) (name : Name) : Except Int Nat × Fs :=
  match dLookup s dir name with
  | some d => (.ok d, s)
  | none =>
    match dAlloc s dir name with
    | (none, s) => (.error (-enomem), s)
    | (some d, s) =>
      let s := if isRamfsDir s (s.inode dir) then ramfsLookup s d else s
      if s.inode d = none then (.error (-enoent), s) else (.ok d, s)

/-- The root of what is mounted on the dentry, or the dentry. -/
def crossMount (s : Fs) (d : Nat) : Nat :=
  match s.mountTable.find? fun m => m.1 = d with
  | some m => m.2
  | none => d

/-- The component loop of `kern_path`; `LOOKUP_PARENT` stops before the last one. -/
def walkPath (lookupParent : Bool) : Fs → Nat → List Name → Except Int Nat × Fs
  | s, d, [] => (.ok d, s)
  | s, d, n :: rest =>
    if lookupParent ∧ rest = [] then (.ok d, s)
    else if n = ['.'] then walkPath lookupParent s d rest
    else if n = ['.', '.'] then walkPath lookupParent s (if d = s.rootDentry then d else s.parent d) rest
    else
      match lookupOne s d n with
      | (.error e, s) => (.error e, s)
      | (.ok c, s) => walkPath lookupParent s (crossMount s c) rest

/-- The component loop over the target of a symlink. -/
def walkTarget : Fs → Nat → List Name → Except Int Nat × Fs
  | s, d, [] => (.ok d, s)
  | s, d, n :: rest =>
    match dLookup s d n with
    | some c => walkTarget s c rest
    | none =>
      if isRamfsDir s (s.inode d) then
        match dAlloc s d n with
        | (none, s) => (.error (-enomem), s)
        | (some c, s) => walkTarget (ramfsLookup s c) c rest
      else (.error (-enoent), s)

/-- The buffer a component of a target is copied into holds 255 characters. -/
def targetComponents (target : Name) : List Name := (components target).map (List.take 255)

def isSymlink (s : Fs) (d : Nat) : Bool := (s.inode d).any fun i => sIslnk (s.inodes i).iMode

/-- `LOOKUP_FOLLOW`, with so many links still allowed.  A link made by `ramfs_create` has no target that begins with a
slash: its `i_private` is the ramfs record. -/
def followLinks : Nat → Fs → Nat → Except Int Nat × Fs
  | fuel, s, d =>
    if isSymlink s d then
      match fuel with
      | 0 => (.error (-eloop), s)
      | fuel + 1 =>
        match (s.inode d).map fun i => (s.inodes i).iPrivate with
        | some (.link target) =>
          if target.head? = some '/' then
            match walkTarget s s.rootDentry (targetComponents target) with
            | (.error e, s) => (.error e, s)
            | (.ok d, s) => followLinks fuel s d
          else (.error (-enoent), s)
        | _ => (.error (-enoent), s)
    else (.ok d, s)

structure LookupFlags where
  parent : Bool
  follow : Bool

def lookupNone : LookupFlags := ⟨false, false⟩
def lookupFollow : LookupFlags := ⟨false, true⟩
def lookupParent : LookupFlags := ⟨true, false⟩

def kernPath (s : Fs) (path : List Char) (flags : LookupFlags) : Except Int Nat × Fs :=
  match walkPath flags.parent s s.rootDentry (components path) with
  | (.error e, s) => (.error e, s)
  | (.ok d, s) => if flags.follow then followLinks 8 s d else (.ok d, s)

/-- `for (p = pathname; *p; p++) if (*p == '/') base = p + 1;`. -/
def baseLoop : List Char → List Char → Name
  | base, [] => base
  | base, c :: p => if c = '/' then baseLoop p p else baseLoop base p

def baseName (path : List Char) : Name := baseLoop path path

/-! ## The operations of a ramfs directory -/

def ramfsCreate (s : Fs) (d mode : Nat) : Int × Fs :=
  match newInode s with
  | (none, s) => (-enomem, s)
  | (some i, s) =>
    match kmallocOk s with
    | (false, s) => (-enomem, s)
    | (true, s) =>
      let s := s.setInode i ⟨mode ||| sIfreg, s.createIno, 1, 0, 0, .none, .ramfsFile, .ramfs⟩
      (0, dInstantiate { s with createIno := s.createIno + 1 } d (some i))

def ramfsMkdir (s : Fs) (dir d mode : Nat) : Int × Fs :=
  match newInode s with
  | (none, s) => (-enomem, s)
  | (some i, s) =>
    let s := s.setInode i ⟨mode ||| sIfdir, s.mkdirIno, 2, 0, 0, .ramfsDir, .ramfsDir, .null⟩
    (0, dInstantiate (incNlink { s with mkdirIno := s.mkdirIno + 1 } dir) d (some i))

def ramfsRmdir (s : Fs) (dir d i : Nat) : Int × Fs :=
  if s.subdirs d ≠ [] then (-enotempty, s) else (0, dropNlink (dropNlink (dropNlink s i) i) dir)

def ramfsUnlink (s : Fs) (i : Nat) : Int × Fs := (0, dropNlink s i)

def ramfsMknod (s : Fs) (d mode dev : Nat) : Int × Fs :=
  match newInode s with
  | (none, s) => (-enomem, s)
  | (some i, s) =>
    let s := s.setInode i ⟨mode, s.mknodIno, 1, dev, 0, .none, .none, .null⟩
    (0, dInstantiate { s with mknodIno := s.mknodIno + 1 } d (some i))

def ramfsSymlink (s : Fs) (d : Nat) (symname : Name) : Int × Fs :=
  match newInode s with
  | (none, s) => (-enomem, s)
  | (some i, s) =>
    match kmallocOk s with
    | (false, s) => (-enomem, s)
    | (true, s) =>
      let s := s.setInode i ⟨sIflnk ||| 0x1FF, s.symlinkIno, 1, 0, symname.length, .none, .none, .link symname⟩
      (0, dInstantiate { s with symlinkIno := s.symlinkIno + 1 } d (some i))

end Vfs
end Pico
