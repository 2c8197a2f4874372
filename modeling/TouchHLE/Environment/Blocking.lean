import TouchHLE.Environment.State

/-! The other functions that block threads: sleeping, suspending and joining (`touchHLE/src/environment.rs`), semaphores
    (also `libc/semaphore.rs`) and the locks of `FILE` objects (`libc/stdio.rs`). -/

namespace TouchHLE.Environment
open Lib

variable (self : Environment) (file : Nat)

def sleep (now duration : Nat) : Except Panic Environment := self.yieldThread (.sleeping (now + duration)) (.returning 0)

def suspendThread (thread : Nat) : Except Panic Environment := do
  let target ← self.thread thread
  match target.blockedBy with
  | .suspended count previous => .ok (self.setThread thread { target with blockedBy := .suspended (count + 1) previous })
  | previous => .ok (self.setThread thread { target with blockedBy := .suspended 1 previous })

def resumeThread (thread : Nat) : Except Panic Environment := do
  let target ← self.thread thread
  match target.blockedBy with
  | .suspended count previous =>
    if count > 1 then .ok (self.setThread thread { target with blockedBy := .suspended (count - 1) previous })
    else if count > 0 then .ok (self.setThread thread { target with blockedBy := previous })
    else .error .suspendCount
  | _ => .error .notSuspended

def newThread : Nat × Environment :=
  (self.threads.length, { self with threads := self.threads ++ [⟨true, .notBlocked, none, .guest⟩] })

def exitThread (returnValue : Nat) : Except Panic Environment := do
  let current ← self.thread self.currentThread
  let self := self.setThread self.currentThread { current with active := false, returnValue := some returnValue }
  .ok { self with executing := false }

def joinWithThread (joineeThread ptr : Nat) : Except Panic Environment :=
  self.yieldThread (.joining joineeThread ptr) (.returning 0)

def addI32 (a b : Int) : Int := (a + b + 2 ^ 31) % 2 ^ 32 - 2 ^ 31

def hostSem (self : Environment) (sem : Nat) : Except Panic SemaphoreHostObject :=
  match self.openSemaphores sem with
  | none => .error .noSemaphore
  | some hostSem => .ok hostSem

def setSem (sem : Nat) (hostSem : Option SemaphoreHostObject) : Environment :=
  { self with openSemaphores := Function.update self.openSemaphores sem hostSem }

/-- An unnamed semaphore; the `u32` value becomes an `i32`. -/
def semInit (sem value : Nat) : Environment :=
  if (self.openSemaphores sem).isSome then self else self.setSem sem (some ⟨addI32 value 0, []⟩)

def semDestroy (sem : Nat) : Int × Environment :=
  if (self.openSemaphores sem).isSome then (0, self.setSem sem none) else (EINVAL, self)

def semDecrement (sem : Nat) (waitOnLock : Bool) : Except Panic (Control Bool × Environment) := do
  let hostSem ← self.hostSem sem
  if hostSem.value > 0 then .ok (.returned true, self.setSem sem (some { hostSem with value := hostSem.value - 1 }))
  else if !waitOnLock then .ok (.returned false, self)
  else
    let self := self.setSem sem (some { hostSem with waiting := hostSem.waiting.insert self.currentThread })
    -- The scheduler decrements the value when it unblocks the thread.
    let self ← self.yieldThread (.semaphore sem) (.returning 0)
    .ok (.yielded, self)

def semIncrement (sem : Nat) : Except Panic Environment := do
  let hostSem ← self.hostSem sem
  .ok (self.setSem sem (some { hostSem with value := addI32 hostSem.value 1 }))

/-- The lock of the object; that of a standard stream is created when it is first needed. -/
def fileHostObj : Except Panic FileLock := do
  let fd ← self.memRead file 4
  match self.fileStreams file with
  | some lock => .ok lock
  | none => if fd ≤ 2 then .ok ⟨0, none⟩ else .error .noFile

def setFile (lock : FileLock) : Environment :=
  { self with fileStreams := Function.update self.fileStreams file (some lock) }

def tryAcquireFileObjectLock (file threadId : Nat) : Except Panic (Bool × Environment) := do
  let lock ← self.fileHostObj file
  if lock.lockCount = 0 then
    if lock.owningThread.isSome then .error .fileLockOwned
    else .ok (true, self.setFile file ⟨1, some threadId⟩)
  else .ok (false, self)

def flockfile : Except Panic (Control Unit × Environment) := do
  let lock ← self.fileHostObj file
  if lock.owningThread.isSome ∧ lock.owningThread ≠ some self.currentThread then
    let self ← (self.setFile file lock).yieldThread (.fileObjectLock file) (.returning 0)
    .ok (.yielded, self)
  else if lock.lockCount + 1 < 2 ^ 32 then
    .ok (.returned (), self.setFile file ⟨lock.lockCount + 1, some self.currentThread⟩)
  else .error .fileLockCount

def ftrylockfile : Except Panic (Int × Environment) := do
  let lock ← self.fileHostObj file
  if lock.owningThread.isSome ∧ lock.owningThread ≠ some self.currentThread then .ok (EBUSY, self.setFile file lock)
  else if lock.lockCount + 1 < 2 ^ 32 then .ok (0, self.setFile file ⟨lock.lockCount + 1, some self.currentThread⟩)
  else .error .fileLockCount

def funlockfile : Except Panic Environment := do
  let lock ← self.fileHostObj file
  if lock.owningThread ≠ some self.currentThread then .error .fileLockOwner
  else if lock.lockCount = 0 then .error .fileLockCount
  else
    let lockCount := lock.lockCount - 1
    .ok (self.setFile file ⟨lockCount, if lockCount = 0 then none else lock.owningThread⟩)

end TouchHLE.Environment
