import TouchHLE.Libc.PosixIo
import TouchHLE.Lib.Slots
import TouchHLE.Objc.Selectors
import TouchHLE.Fs

/-! Opening and closing files: the rest of `touchHLE/src/libc/posix_io.rs` that works on the table of descriptors.

    What the host answers is given with each call: whether it opens a file and which, whether it is synchronized, what a
    write does. The variable argument of `fcntl` is a number. The networking state of a socket is not modelled. -/

namespace TouchHLE
namespace Libc
open Environment (EINVAL)

inductive PosixPanic where
  | io (panic : Panic)
  | fs (panic : Fs.Panic)
  | openFlags
  | accessMode
  /-- The path has no end. -/
  | pastEnd
  | fileIdx | unknownFd | readOnlyFile | unimplemented | tryInto | assertion
deriving DecidableEq

def ofIo {α : Type} : Except Panic α → Except PosixPanic α
  | .ok value => .ok value
  | .error panic => .error (.io panic)

def ofFs {α : Type} : Except Fs.Panic α → Except PosixPanic α
  | .ok value => .ok value
  | .error panic => .error (.fs panic)

abbrev OpenFlag := BitVec 32

def O_RDONLY : OpenFlag := 0x0
def O_WRONLY : OpenFlag := 0x1
def O_RDWR : OpenFlag := 0x2
def O_ACCMODE : OpenFlag := O_RDWR ||| O_WRONLY ||| O_RDONLY
def O_NONBLOCK : OpenFlag := 0x4
def O_APPEND : OpenFlag := 0x8
def O_SHLOCK : OpenFlag := 0x10
def O_NOFOLLOW : OpenFlag := 0x100
def O_CREAT : OpenFlag := 0x200
def O_TRUNC : OpenFlag := 0x400
def O_EXCL : OpenFlag := 0x800

def knownFlags : OpenFlag :=
  O_ACCMODE ||| O_NONBLOCK ||| O_APPEND ||| O_SHLOCK ||| O_NOFOLLOW ||| O_CREAT ||| O_TRUNC ||| O_EXCL

/-- The options that the flags stand for; no access mode is `O_ACCMODE`. -/
def openOptions (flags : OpenFlag) : GuestOpenOptions where
  read := flags &&& O_ACCMODE = O_RDONLY ∨ flags &&& O_ACCMODE = O_RDWR
  write := flags &&& O_ACCMODE = O_WRONLY ∨ flags &&& O_ACCMODE = O_RDWR
  append := flags &&& O_APPEND ≠ 0
  create := flags &&& O_CREAT ≠ 0
  truncate := flags &&& O_TRUNC ≠ 0
  exclusive := flags &&& O_EXCL ≠ 0

def ENOENT : Int := 2
def EIO : Int := 5
def EACCES : Int := 13
def EFAULT : Int := 14
def EEXIST : Int := 17
def ENOTDIR : Int := 20

def errnoOf : Fs.FsError → Option Int
  | .accessDenied => some EACCES
  | .alreadyExist => some EEXIST
  | .doesNotExist => some ENOENT
  | .invalidParentDir => some ENOTDIR
  | .isDirectory => some EISDIR
  | .nonexistentParentDir => some ENOENT
  | .readonlyParentDir => some EACCES
  | .ioError => some EIO
  | .directoryNotEmpty => none

/-- What `std::fs::OpenOptions` accepts: an access mode; a file that is only read is neither created nor truncated, one that
    is appended to is not truncated. -/
def optionsAccepted (options : GuestOpenOptions) : Bool := (options.read || options.write || options.append) &&
    if options.append then !options.truncate
    else options.write || !(options.truncate || options.create)

def hostOpens (host : HostOp → Bool) (op : HostOp) : Bool :=
  match op with
  | .openFile _ options => optionsAccepted options && host op
  | _ => host op

def guestFileOf (handle : HostFile) : Opened → GuestFile
  | .file _ => .file handle
  | .ipaBundleFile _ => .ipaBundleFile handle
  | .resourceFile _ => .resourceFile handle
  | .directory => .directory

abbrev WriteAnswer := Option (Nat × HostFile)

def writeFile (file : GuestFile) (answer : WriteAnswer) : Except PosixPanic (Option (Nat × GuestFile)) :=
  match file with
  | .file _ => .ok (answer.map fun w => (w.1, .file w.2))
  | .ipaBundleFile _ => .error .readOnlyFile
  | .resourceFile _ => .error .readOnlyFile
  | .directory => .error .readOnlyFile
  | .socket => .error .unimplemented

structure Posix where
  env : Env
  fs : Fs

namespace Posix

def setErrno (self : Posix) (val : Int) : Posix := { self with env := self.env.setErrno val }

variable (self : Posix) (fd : Int)

def setFiles (files : List (Option PosixFileHostObject)) : Posix := { self with env := { self.env with files } }

def fileIdxToFd (idx : Nat) : Except PosixPanic Int :=
  if (idx : Int) + NORMAL_FILENO_BASE < 2 ^ 31 then .ok (idx + NORMAL_FILENO_BASE) else .error .fileIdx

def slot : Except PosixPanic (Option (Option PosixFileHostObject)) := do
  match ← ofIo (Env.fdToFileIdx fd) with
  | none => .ok none
  | some idx => .ok self.env.files[idx]?

def isFdOpen : Except PosixPanic Bool := return (← self.slot fd).isSome

def findOrCreateFd (file : PosixFileHostObject) : Except PosixPanic (Int × Posix) := do
  let placed := Lib.Slots.place self.env.files file
  let fd ← fileIdxToFd placed.1
  .ok (fd, self.setFiles placed.2)

def flock (_fd : Int) : Int × Posix := (0, self.setErrno 0)

def openFile (host : HostOp → Bool) (handle : HostFile) (path : GuestPath) (flags : OpenFlag) :
    Except PosixPanic (Int × Posix) := do
  let opened ← ofFs (self.fs.openWithOptions (hostOpens host) path (openOptions flags))
  let self := { self with fs := opened.2.1 }
  match opened.1 with
  | .ok file =>
    self.findOrCreateFd
      { file := guestFileOf handle file, needsFlush := (openOptions flags).write, reachedEof := false, flags := 0 }
  | .error error =>
    match errnoOf error with
    | some errno => .ok (-1, self.setErrno errno)
    | none => .error .unimplemented

def openDirect (host : HostOp → Bool) (handle : HostFile) (path : Nat) (flags : OpenFlag) :
    Except PosixPanic (Int × Posix) := do
  if flags &&& ~~~knownFlags ≠ 0 then .error .openFlags
  else if path = 0 then .ok (-1, self.setErrno EFAULT)
  else if flags &&& O_ACCMODE = O_ACCMODE then .error .accessMode
  else
    match Objc.Selectors.cstrAt self.env.mem.bytes path with
    | .error _ => .error .pastEnd
    | .ok bytes =>
      match bytes.toByteArray.utf8Decode? with
      | none => .ok (-1, self)
      | some path =>
        let opened ← self.openFile host handle path.toList flags
        if opened.1 ≠ -1 ∧ flags &&& O_SHLOCK ≠ 0 then .ok (opened.1, (opened.2.flock opened.1).2)
        else .ok opened

def «open» (host : HostOp → Bool) (handle : HostFile) (path : Nat) (flags : OpenFlag) :
    Except PosixPanic (Int × Posix) := (self.setErrno 0).openDirect host handle path flags

def closeResult (file : PosixFileHostObject) (synced : Bool) : Int :=
  match file.file with
  | .directory => 0
  | .socket => 0
  | .file _ => if !file.needsFlush || synced then 0 else -1
  | .ipaBundleFile _ => 0
  | .resourceFile _ => 0

def close (synced : Bool) : Except PosixPanic (Int × Posix) := do
  let self := self.setErrno 0
  if fd = STDIN_FILENO ∨ fd = STDOUT_FILENO ∨ fd = STDERR_FILENO then .ok (0, self)
  else if fd < 0 then .ok (-1, self.setErrno EBADF)
  else
    match ← ofIo (Env.fdToFileIdx fd) with
    | none => .ok (-1, self.setErrno EBADF)
    | some idx =>
      match self.env.files[idx]? with
      | none => .ok (-1, self.setErrno EBADF)
      | some none => .ok (-1, self.setErrno EBADF)
      | some (some file) => .ok (closeResult file synced, self.setFiles (self.env.files.set idx none))

def read (self : Posix) (fd : Int) (buffer size : Nat) : Except PosixPanic (Int × Posix) := do
  let result ← ofIo (self.env.read fd buffer size)
  .ok (result.1, { self with env := result.2 })

def lseek (self : Posix) (fd offset whence : Int) : Except PosixPanic (Int × Posix) := do
  let result ← ofIo (self.env.lseek fd offset whence)
  .ok (result.1, { self with env := result.2 })

def write (buffer size : Nat) (answer : WriteAnswer) : Except PosixPanic (Int × Posix) := do
  let self := self.setErrno 0
  match ← ofIo (self.env.fileForFd fd) with
  | none => .error .unknownFd
  | some file =>
    if 2 ^ 32 < buffer + size then .error (.io .sliceRange)
    else
      match ← writeFile file.2.file answer with
      | none => .ok (-1, self)
      | some written =>
        let self := { self with env := self.env.setFile file.1 { file.2 with file := written.2 } }
        if written.1 < 2 ^ 31 then .ok (written.1, self) else .error .tryInto

def atOffset (offset : Int) (io : Posix → Except PosixPanic (Int × Posix)) : Except PosixPanic (Int × Posix) := do
  let (originalPosition, self) ← self.lseek fd 0 SEEK_CUR
  if originalPosition = -1 then .ok (-1, self)
  else
    let (position, self) ← self.lseek fd offset SEEK_SET
    if position = -1 then .ok (-1, self)
    else
      let (count, self) ← io self
      let (position, self) ← self.lseek fd originalPosition SEEK_SET
      if position = -1 then .error .assertion else .ok (count, self)

def pread (buffer size : Nat) (offset : Int) : Except PosixPanic (Int × Posix) :=
  self.atOffset fd offset fun s => s.read fd buffer size

def pwrite (buffer size : Nat) (offset : Int) (answer : WriteAnswer) : Except PosixPanic (Int × Posix) :=
  self.atOffset fd offset fun s => s.write fd buffer size answer

def F_GETFD : Int := 1
def F_SETFD : Int := 2
def F_GETLK : Int := 7
def F_SETLK : Int := 8
def F_RDADVISE : Int := 44
def F_NOCACHE : Int := 48
def FD_CLOEXEC : Int := 1
def F_RDLCK : Int := 1
def F_UNLCK : Int := 2
def F_WRLCK : Int := 3

structure Flock where
  start : Int
  lockType : Int
  whence : Int

def toSigned (bits n : Nat) : Int := if n < 2 ^ (bits - 1) then n else (n : Int) - 2 ^ bits

def readFlock (ptr : Nat) : Except PosixPanic Flock :=
  if ptr + 24 ≤ 2 ^ 32 then
    .ok { start := toSigned 64 (Environment.readLe self.env.mem.bytes ptr 8)
          lockType := toSigned 16 (Environment.readLe self.env.mem.bytes (ptr + 20) 2)
          whence := toSigned 16 (Environment.readLe self.env.mem.bytes (ptr + 22) 2) }
  else .error (.io .sliceRange)

/-- `file.stream_position().unwrap()` or `file.stream_len().unwrap()` of the file of a descriptor -/
def unwrapPosition (position : GuestFile → Except Panic (Except ErrorKind Nat)) :
    Except PosixPanic Nat := do
  match ← ofIo (self.env.fileForFd fd) with
  | none => .error .unknownFd
  | some file =>
    match ← ofIo (position file.2.file) with
    | .error _ => .error .assertion
    | .ok n => .ok n

def wrappingAdd (a b : Int) : Int := toSigned 64 ((a + b) % 2 ^ 64).toNat

def validateLock (lock : Flock) : Except PosixPanic (Option Int) := do
  if ¬(lock.lockType = F_RDLCK ∨ lock.lockType = F_UNLCK ∨ lock.lockType = F_WRLCK) then .ok (some EINVAL)
  else if lock.whence = SEEK_SET then .ok (if lock.start < 0 then some EINVAL else none)
  else if lock.whence = SEEK_CUR then
    let position ← self.unwrapPosition fd GuestFile.streamPosition
    .ok (if wrappingAdd position lock.start < 0 then some EINVAL else none)
  else if lock.whence = SEEK_END then
    let size ← self.unwrapPosition fd GuestFile.streamLen
    if offMax < size then .error .tryInto
    else .ok (if wrappingAdd size lock.start < 0 then some EINVAL else none)
  else .ok (some EINVAL)

def setFd (flags : Int) : Except PosixPanic (Int × Posix) := do
  if ¬(flags = FD_CLOEXEC ∨ flags = 0) then .error .assertion
  else
    match ← ofIo (self.env.fileForFd fd) with
    | none => .error .unknownFd
    | some file => .ok (0, { self with env := self.env.setFile file.1 { file.2 with flags } })

/-- The lock at `ptr`; `F_GETLK` writes it back without a lock. -/
def lockCommand (cmd : Int) (ptr : Nat) : Except PosixPanic (Int × Posix) := do
  let lock ← self.readFlock ptr
  match ← self.validateLock fd lock with
  | some errno => .ok (-1, self.setErrno errno)
  | none =>
    if cmd = F_GETLK then
      let mem := { self.env.mem with bytes := Objc.Selectors.writeLe self.env.mem.bytes (ptr + 20) 2 F_UNLCK.toNat }
      .ok (0, { self with env := { self.env with mem } })
    else .ok (0, self)

def fcntl (self : Posix) (fd cmd : Int) (arg : Nat) : Except PosixPanic (Int × Posix) := do
  let self := self.setErrno 0
  if NORMAL_FILENO_BASE ≤ fd ∧ self.env.files.length ≤ (fd - NORMAL_FILENO_BASE).toNat then .ok (-1, self.setErrno EBADF)
  else if cmd = F_GETFD then
    match ← ofIo (self.env.fileForFd fd) with
    | none => .error .unknownFd
    | some file => .ok (file.2.flags, self)
  else if cmd = F_SETFD then self.setFd fd (toSigned 32 arg)
  else if cmd = F_GETLK ∨ cmd = F_SETLK then self.lockCommand fd cmd arg
  else if cmd = F_NOCACHE then if toSigned 32 arg = 1 then .ok (0, self) else .error .assertion
  else if cmd = F_RDADVISE then .ok (0, self)
  else .error .unimplemented

inductive Call where
  | open (path : Nat) (flags : OpenFlag) (host : HostOp → Bool) (handle : HostFile)
  | close (fd : Int) (synced : Bool)
  | read (fd : Int) (buffer size : Nat)
  | write (fd : Int) (buffer size : Nat) (answer : WriteAnswer)
  | lseek (fd offset whence : Int)
  | fcntl (fd cmd : Int) (arg : Nat)

def call : Call → Except PosixPanic (Int × Posix)
  | .open path flags host handle => self.open host handle path flags
  | .close fd synced => self.close fd synced
  | .read fd buffer size => self.read fd buffer size
  | .write fd buffer size answer => self.write fd buffer size answer
  | .lseek fd offset whence => self.lseek fd offset whence
  | .fcntl fd cmd arg => self.fcntl fd cmd arg

end Posix
end Libc
end TouchHLE
