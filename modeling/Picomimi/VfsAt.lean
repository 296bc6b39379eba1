import Picomimi.VfsOps
/-!
# VfsAt — the path of a dentry and the `*at` calls: `fs/vfs_ops.c`, `kernel/fs_syscalls.c`, `kernel/at_syscalls.c`

An `*at` call writes the path of its directory out, appends the caller's and resolves the text from the root.  `fget` is the
dentry of the file open at a descriptor, `none` when there is no such file or it has no dentry.
-/
namespace Pico
namespace Vfs

def ebadf : Int := 9
def efault : Int := 14
def erange : Int := 34

def pathMax : Nat := 4096
def atFdcwd : Int := -100

/-! ## Paths written out -/

/-- The loop from a dentry up to the first that is its own parent: `end` bytes are left before the text.  There are fewer
dentries above one than dentries. -/
def pathLoop (s : Fs) : Nat → Nat → Nat → List Char → Option (List Char)
  | 0, _, _, _ => none
  | fuel + 1, d, room, text =>
    if d = s.parent d then some text
    else if room < (s.name d).length + 1 then none
    else pathLoop s fuel (s.parent d) (room - (s.name d).length - 1) ('/' :: s.name d ++ text)

/-- `dentry_path_raw`, `none` for `NULL`. -/
def dentryPathRaw (s : Fs) (d buflen : Nat) : Option (List Char) :=
  if buflen = 0 then none
  else
    match pathLoop s s.nrDentry d (buflen - 1) [] with
    | some [] => if buflen - 1 < 1 then none else some ['/']
    | r => r

/-- `sys_getcwd`: what it writes to a buffer of `size` bytes, for the working directory `pwd`. -/
def sysGetcwd (s : Fs) (pwd : Option Nat) (size : Nat) : Except Int (List Char) :=
  if size = 0 then .error (-einval)
  else
    match pwd with
    | none => if size < 2 then .error (-erange) else .ok ['/']
    | some cwd =>
      match pathLoop s s.nrDentry cwd 4095 [] with
      | none => .error (-erange)
      | some text =>
        let path := if text = [] then ['/'] else text
        if path.length + 1 > size then .error (-erange) else .ok path

/-- `sys_chdir`: the new working directory; `none` is the read of `p.dentry->d_inode->i_mode` without an inode. -/
def sysChdir (s : Fs) (path : List Char) : Option (Except Int Nat) × Fs :=
  match kernPath s path lookupFollow with
  | (.error e, s) => (some (.error e), s)
  | (.ok d, s) =>
    match s.inode d with
    | none => (none, s)
    | some i => (some (if sIsdir (s.inodes i).iMode then .ok d else .error (-enotdir)), s)

/-! ## `at_resolve` -/

/-- The text `at_resolve` and `sys_openat` build: `base`'s path, a slash and the caller's path. -/
def atPath (s : Fs) (base : Nat) (pathname : List Char) : Except Int (List Char) × Fs :=
  match kmallocOk s with
  | (false, s) => (.error (-enomem), s)
  | (true, s) =>
    match dentryPathRaw s base pathMax with
    | none => (.error (-enametoolong), s)
    | some bp =>
      match kmallocOk s with
      | (false, s) => (.error (-enomem), s)
      | (true, s) => (.ok (bp ++ '/' :: pathname), s)

/-- Does an `*at` call hand the path to the call without a descriptor? -/
def isPlain (dirfd : Int) (pathname : List Char) : Bool := pathname.head? == some '/' || dirfd == atFdcwd

/-- `fget((unsigned int)dirfd)`. -/
def dirFile (fget : Nat → Option Nat) (dirfd : Int) : Option Nat := fget (dirfd % 4294967296).toNat

def atResolve (s : Fs) (fget : Nat → Option Nat) (dirfd : Int) (pathname : List Char) (flags : LookupFlags) :
    Except Int Nat × Fs :=
  if isPlain dirfd pathname then kernPath s pathname flags
  else
    match dirFile fget dirfd with
    | none => (.error (-ebadf), s)
    | some base =>
      match s.inode base with
      | none => (.error (-ebadf), s)
      | some i =>
        if ¬sIsdir (s.inodes i).iMode then (.error (-enotdir), s)
        else
          match atPath s base pathname with
          | (.error e, s) => (.error e, s)
          | (.ok full, s) => kernPath s full flags

/-- `sys_openat`, as far as `filp_open` goes: it builds the path itself. -/
def sysOpenat (s : Fs) (fget : Nat → Option Nat) (dirfd : Int) (pathname : List Char) (flags mode : Nat) :
    Except Int File × Fs :=
  if isPlain dirfd pathname then filpOpen s pathname flags mode
  else
    match dirFile fget dirfd with
    | none => (.error (-ebadf), s)
    | some base =>
      match atPath s base pathname with
      | (.error e, s) => (.error e, s)
      | (.ok full, s) => filpOpen s full flags mode

/-! ## The makers -/

/-- The path cut at its last slash, or `.`. -/
def atDirName (pathname : List Char) : List Char := if '/' ∈ pathname then dirName pathname else ['.']

/-- What `sys_mknodat` and `sys_symlinkat` share: neither asks whether the name exists. -/
def atNewDentry (s : Fs) (fget : Nat → Option Nat) (dirfd : Int) (pathname : List Char)
    (make : Fs → Option Nat → Nat → Int × Fs) : Int × Fs :=
  match kmallocOk s with
  | (false, s) => (-enomem, s)
  | (true, s) =>
    match atResolve s fget dirfd (atDirName pathname) lookupFollow with
    | (.error e, s) => (e, s)
    | (.ok parent, s) =>
      match dAlloc s parent (baseName pathname) with
      | (none, s) => (-enomem, s)
      | (some d, s) => make s (s.inode parent) d

def sysMknodat (s : Fs) (fget : Nat → Option Nat) (dirfd : Int) (pathname : List Char) (mode dev : Nat) : Int × Fs :=
  if isPlain dirfd pathname then sysMknod s pathname mode dev
  else atNewDentry s fget dirfd pathname fun s dir d => vfsMknod s dir d mode dev

def sysSymlinkat (s : Fs) (target : List Char) (fget : Nat → Option Nat) (newdir : Int) (linkpath : List Char) : Int × Fs :=
  if isPlain newdir linkpath then sysSymlink s target linkpath
  else atNewDentry s fget newdir linkpath fun s dir d => vfsSymlink s dir d target

end Vfs
end Pico
