import TouchHLE.Mem.Memory
import TouchHLE.Environment.State

/-! File descriptors: `touchHLE/src/libc/posix_io.rs`, with the files of `fs.rs` that they refer to and the `errno` of
    each thread.

    A file of the host is its contents and a position; errors of the host are not modelled. A thread's `errno` and the
    descriptor in a `FILE` are kept apart from the guest memory. -/

namespace TouchHLE
namespace Libc
open Environment (EINVAL)

inductive Panic where
  | mem (panic : Mem.Panic)
  | sliceRange | pointerOverflow | fileDescriptor | unimplemented | tryInto
  | noFileStream | fileLock | checkedMul | seekFailed | ungetcEof | ungetcAtStart | badWhence
deriving DecidableEq

def ofMem {α : Type} : Except Mem.Panic α → Except Panic α
  | .ok value => .ok value
  | .error panic => .error (.mem panic)

def EBADF : Int := 9
def EISDIR : Int := 21
def ESPIPE : Int := 29
def EOVERFLOW : Int := 84

structure HostFile where
  contents : List UInt8
  position : Nat
deriving DecidableEq

inductive GuestFile where
  | directory
  | file (file : HostFile)
  | ipaBundleFile (file : HostFile)
  | resourceFile (file : HostFile)
  | socket
deriving DecidableEq

inductive ErrorKind where
  | isADirectory
deriving DecidableEq

namespace HostFile

def rest (self : HostFile) : List UInt8 := self.contents.drop self.position

def read (self : HostFile) (size : Nat) : List UInt8 × HostFile :=
  (self.rest.take size, { self with position := self.position + (self.rest.take size).length })

end HostFile

namespace GuestFile

def isSeekable : GuestFile → Bool
  | socket => false
  | _ => true

def read (self : GuestFile) (size : Nat) : Except Panic (Except ErrorKind (List UInt8 × GuestFile)) :=
  match self with
  | file f => .ok (.ok ((f.read size).1, file (f.read size).2))
  | ipaBundleFile f => .ok (.ok ((f.read size).1, ipaBundleFile (f.read size).2))
  | resourceFile f => .ok (.ok ((f.read size).1, resourceFile (f.read size).2))
  | directory => .ok (.error .isADirectory)
  | socket => .error .unimplemented

def seek (self : GuestFile) (position : Nat) : Except Panic (Except ErrorKind GuestFile) :=
  match self with
  | file f => .ok (.ok (file { f with position }))
  | ipaBundleFile f => .ok (.ok (ipaBundleFile { f with position }))
  | resourceFile f => .ok (.ok (resourceFile { f with position }))
  | directory => .ok (.error .isADirectory)
  | socket => .error .unimplemented

def streamPosition (self : GuestFile) : Except Panic (Except ErrorKind Nat) :=
  match self with
  | file f | ipaBundleFile f | resourceFile f => .ok (.ok f.position)
  | directory => .ok (.error .isADirectory)
  | socket => .error .unimplemented

def streamLen (self : GuestFile) : Except Panic (Except ErrorKind Nat) :=
  match self with
  | file f | ipaBundleFile f | resourceFile f => .ok (.ok f.contents.length)
  | directory => .ok (.error .isADirectory)
  | socket => .error .unimplemented

end GuestFile

structure PosixFileHostObject where
  file : GuestFile
  needsFlush : Bool
  reachedEof : Bool
  flags : Int
deriving DecidableEq

structure FILEHostObject where
  /-- `ungetc()` implementation -/
  pushbacks : List UInt8
  lockCount : Nat
  owningThread : Option Nat
deriving DecidableEq

structure Env where
  currentThread : Nat
  mem : Mem
  errnos : Nat → Int
  files : List (Option PosixFileHostObject)
  fileStreams : Nat → Option FILEHostObject
  fileFd : Nat → Int

def STDIN_FILENO : Int := 0
def STDOUT_FILENO : Int := 1
def STDERR_FILENO : Int := 2
def NORMAL_FILENO_BASE : Int := STDERR_FILENO + 1

def SEEK_SET : Int := 0
def SEEK_CUR : Int := 1
def SEEK_END : Int := 2

def offMax : Nat := 2 ^ 63 - 1

namespace Env

def setErrno (self : Env) (val : Int) : Env := { self with errnos := Function.update self.errnos self.currentThread val }

def memRead (self : Env) (ptr size : Nat) : Except Panic Nat :=
  if ptr + size ≤ 2 ^ 32 then .ok (Environment.readLe self.mem.bytes ptr size) else .error .sliceRange

/-- `fd.checked_sub(NORMAL_FILENO_BASE).unwrap() as usize`, where a negative number is an index that no table has. -/
def fdToFileIdx (fd : Int) : Except Panic (Option Nat) :=
  if fd - NORMAL_FILENO_BASE < -2 ^ 31 then .error .fileDescriptor
  else if fd - NORMAL_FILENO_BASE < 0 then .ok none
  else .ok (some (fd - NORMAL_FILENO_BASE).toNat)

def fileForFd (self : Env) (fd : Int) : Except Panic (Option (Nat × PosixFileHostObject)) := do
  match ← fdToFileIdx fd with
  | none => .ok none
  | some idx => .ok (self.files[idx]?.join.map fun file => (idx, file))

def setFile (self : Env) (idx : Nat) (file : PosixFileHostObject) : Env :=
  { self with files := self.files.set idx (some file) }

def read (self : Env) (fd : Int) (buffer size : Nat) : Except Panic (Int × Env) := do
  let self := self.setErrno 0
  if buffer = 0 then .ok (-1, self)
  else
    match ← self.fileForFd fd with
    | none => .ok (-1, self)
    | some (idx, file) =>
      if 2 ^ 32 < buffer + size then .error .sliceRange
      else
        match ← file.file.read size with
        | .ok (data, guestFile) =>
          let mem ← ofMem (self.mem.copyFromSlice buffer size data)
          let reachedEof := if data.length = 0 ∧ size ≠ 0 then true else file.reachedEof
          let self := { self with mem }.setFile idx { file with file := guestFile, reachedEof }
          if data.length < 2 ^ 31 then .ok (data.length, self) else .error .tryInto
        | .error .isADirectory => .ok (0, self.setErrno EISDIR)

/-- Where the offset of a seek counts from, or the `errno` of the failure. -/
def startPosition (file : GuestFile) (whence : Int) : Except Panic (Except Int Nat) := do
  if whence = SEEK_SET then .ok (.ok 0)
  else if whence = SEEK_CUR then
    match ← file.streamPosition with
    | .ok position => .ok (.ok position)
    | .error .isADirectory => .ok (.error EISDIR)
  else if whence = SEEK_END then
    match ← file.streamLen with
    | .ok len => .ok (.ok len)
    | .error .isADirectory => .ok (.error EISDIR)
  else .ok (.error EINVAL)

def lseek (self : Env) (fd offset whence : Int) : Except Panic (Int × Env) := do
  match ← self.fileForFd fd with
  | none => .ok (-1, self.setErrno EBADF)
  | some (idx, file) =>
    if file.file.isSeekable = false then .ok (-1, self.setErrno ESPIPE)
    else
      match ← startPosition file.file whence with
      | .error errno => .ok (-1, self.setErrno errno)
      | .ok start =>
        -- `start_position.checked_add_signed(offset)`
        if start + offset < 0 then .ok (-1, self.setErrno EINVAL)
        else if (offMax : Int) < start + offset then .ok (-1, self.setErrno EOVERFLOW)
        else
          match ← file.file.seek (start + offset).toNat with
          | .ok guestFile => .ok (start + offset, self.setFile idx { file with file := guestFile, reachedEof := false })
          | .error .isADirectory => .ok (-1, self.setErrno EISDIR)

end Env
end Libc
end TouchHLE
