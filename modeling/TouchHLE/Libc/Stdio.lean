import TouchHLE.Libc.PosixIo

/-! Streams: `touchHLE/src/libc/stdio.rs`, the functions that read and position a stream. -/

namespace TouchHLE.Libc

def EOF : Int := -1

namespace Env

variable (self : Env) (filePtr : Nat)

def getFileHostObj : Except Panic (FILEHostObject × Env) :=
  match self.fileStreams filePtr with
  | some object => .ok (object, self)
  | none =>
    if self.fileFd filePtr ∈ [STDIN_FILENO, STDOUT_FILENO, STDERR_FILENO] then
      let object : FILEHostObject := ⟨[], 0, none⟩
      .ok (object, { self with fileStreams := Function.update self.fileStreams filePtr (some object) })
    else .error .noFileStream

def setFileHostObj (object : FILEHostObject) : Env :=
  { self with fileStreams := Function.update self.fileStreams filePtr (some object) }

def checkFileObjectLock : Except Panic Env := do
  let (object, self) ← self.getFileHostObj filePtr
  if (object.owningThread = none ∧ object.lockCount = 0) ∨ object.owningThread = some self.currentThread then .ok self
  else .error .fileLock

/-- The end of `fread`, after the pushbacks: `alreadyRead` bytes are in place, and the rest comes from the file. -/
def freadRest (buffer itemSize totalSize alreadyRead filePtr : Nat) : Except Panic (Nat × Env) := do
  let (bytesRead, self) ← self.read (self.fileFd filePtr) buffer totalSize
  if bytesRead = -1 then .ok (alreadyRead / itemSize, self)
  else .ok ((bytesRead.toNat + alreadyRead) / itemSize, self)

def fread (buffer itemSize nItems filePtr : Nat) : Except Panic (Nat × Env) := do
  let self := self.setErrno 0
  let self ← self.checkFileObjectLock filePtr
  if itemSize = 0 then .ok (0, self)
  else
    let totalSize := itemSize * nItems
    if 2 ^ 32 ≤ totalSize then .error .checkedMul
    else
      let (object, self) ← self.getFileHostObj filePtr
      if object.pushbacks = [] then self.freadRest buffer itemSize totalSize 0 filePtr
      else
        let toCopy := min object.pushbacks.length totalSize
        let offset := object.pushbacks.length - toCopy
        if 2 ^ 32 ≤ toCopy then .error .tryInto
        else
          let mem ← ofMem (self.mem.copyFromSlice buffer toCopy (object.pushbacks.drop offset).reverse)
          let self := { self with mem }.setFileHostObj filePtr { object with pushbacks := object.pushbacks.take offset }
          if totalSize = toCopy then .ok (totalSize, self)
          else if 2 ^ 32 ≤ buffer + toCopy then .error .pointerOverflow
          else self.freadRest (buffer + toCopy) itemSize (totalSize - toCopy) toCopy filePtr

def fgetc : Except Panic (Int × Env) := do
  let self := self.setErrno 0
  let self ← self.checkFileObjectLock filePtr
  let fd := self.fileFd filePtr
  let (object, self) ← self.getFileHostObj filePtr
  match object.pushbacks.getLast? with
  | some pushback =>
    let self := self.setFileHostObj filePtr { object with pushbacks := object.pushbacks.dropLast }
    let (newOffset, self) ← self.lseek fd 1 SEEK_CUR
    if newOffset ≤ 0 then .error .seekFailed else .ok (pushback.toNat, self)
  | none =>
    let (buffer, _, mem) ← ofMem (self.mem.allocInHeap none 1)
    let (bytesRead, self) ← { self with mem }.read fd buffer 1
    if bytesRead = -1 then .ok (EOF, self)
    else if bytesRead < 1 then .ok (EOF, self)
    else
      let byte ← self.memRead buffer 1
      .ok (byte, self)

/-- The file is one byte back, and the byte that was put back is not written to it. -/
def ungetc (c : Int) (filePtr : Nat) : Except Panic (Int × Env) := do
  if c = EOF then .error .ungetcEof
  else
    let self ← self.checkFileObjectLock filePtr
    let fd := self.fileFd filePtr
    let (currOffset, self) ← self.lseek fd 0 SEEK_CUR
    if currOffset ≤ 0 then .error .ungetcAtStart
    else
      let (newOffset, self) ← self.lseek fd (-1) SEEK_CUR
      if newOffset < 0 then .error .seekFailed
      else
        let (object, self) ← self.getFileHostObj filePtr
        if 0 ≤ c ∧ c < 256 then
          .ok (c, self.setFileHostObj filePtr { object with pushbacks := object.pushbacks ++ [.ofNat c.toNat] })
        else .error .tryInto

def fgetsLoop (stream : Nat) : Nat → Env → Nat → Except Panic (Nat × Env)
  | 0, self, tmp => .ok (tmp, self)
  | remaining + 1, self, tmp => do
    let (count, self) ← self.fread tmp 1 1 stream
    if count = 0 then .ok (tmp, self)
    else if 2 ^ 32 ≤ tmp + 1 then .error .pointerOverflow
    else
      let byte ← self.memRead tmp 1
      if byte = 10 then .ok (tmp + 1, self) else fgetsLoop stream remaining self (tmp + 1)

def fgets (str size stream : Nat) : Except Panic (Nat × Env) := do
  let (tmp, self) ← fgetsLoop stream size self str
  if tmp = str then .ok (0, self)
  else
    let mem ← ofMem (self.mem.copyFromSlice tmp 1 [0])
    .ok (str, { self with mem })

def clearPushbacks : Except Panic Env := do
  let (object, self) ← self.getFileHostObj filePtr
  .ok (self.setFileHostObj filePtr { object with pushbacks := [] })

def seekAndClear (offset whence : Int) : Except Panic (Int × Env) := do
  let (curPos, self) ← self.lseek (self.fileFd filePtr) offset whence
  if curPos = -1 then .ok (-1, self)
  else
    let self ← self.clearPushbacks filePtr
    .ok (0, self)

def fseeko (offset whence : Int) : Except Panic (Int × Env) := do
  let self := self.setErrno 0
  let self ← self.checkFileObjectLock filePtr
  if whence ∉ [SEEK_SET, SEEK_CUR, SEEK_END] then .error .badWhence
  else self.seekAndClear filePtr offset whence

def fseek (offset whence : Int) : Except Panic (Int × Env) := self.fseeko filePtr offset whence

def ftello : Except Panic (Int × Env) := do
  let self := self.setErrno 0
  let self ← self.checkFileObjectLock filePtr
  self.lseek (self.fileFd filePtr) 0 SEEK_CUR

def ftell : Except Panic (Int × Env) := do
  let (position, self) ← self.ftello filePtr
  if -2 ^ 31 ≤ position ∧ position < 2 ^ 31 then .ok (position, self) else .error .tryInto

def fgetpos (pos : Nat) : Except Panic (Int × Env) := do
  let (res, self) ← self.ftello filePtr
  if res = -1 then .ok (-1, self)
  else
    let mem ← ofMem (self.mem.copyFromSlice pos 8 ((List.range 8).map fun i => .ofNat (res.toNat / 256 ^ i)))
    .ok (0, { self with mem })

def rewind : Except Panic Env := do
  let (_, self) ← (self.setErrno 0).fseek filePtr 0 SEEK_SET
  .ok self

def toI64 (bits : Nat) : Int := if bits < 2 ^ 63 then bits else bits - 2 ^ 64

def fsetpos (self : Env) (filePtr pos : Nat) : Except Panic (Int × Env) := do
  let self := self.setErrno 0
  let self ← self.checkFileObjectLock filePtr
  let bits ← self.memRead pos 8
  self.seekAndClear filePtr (toI64 bits) SEEK_SET

end Env

inductive StreamCall where
  | fgetc
  | fread (buffer itemSize nItems : Nat)
  | fgets (str size : Nat)
  | ungetc (c : Int)
  | fseek (offset whence : Int)
  | fseeko (offset whence : Int)
  | rewind
  | fsetpos (pos : Nat)
  | ftell
  | ftello

/-- The value that a call returns; `rewind` has none, and 0 stands for it. -/
def Env.call (filePtr : Nat) (self : Env) : StreamCall → Except Panic (Int × Env)
  | .fgetc => self.fgetc filePtr
  | .fread buffer itemSize nItems => do
    let (count, self) ← self.fread buffer itemSize nItems filePtr
    .ok (count, self)
  | .fgets str size => do
    let (ptr, self) ← self.fgets str size filePtr
    .ok (ptr, self)
  | .ungetc c => self.ungetc c filePtr
  | .fseek offset whence => self.fseek filePtr offset whence
  | .fseeko offset whence => self.fseeko filePtr offset whence
  | .rewind => do
    let self ← self.rewind filePtr
    .ok (0, self)
  | .fsetpos pos => self.fsetpos filePtr pos
  | .ftell => self.ftell filePtr
  | .ftello => self.ftello filePtr

end TouchHLE.Libc
