import TouchHLE.Environment.Mutex

/-! The guest mutex interface: `touchHLE/src/libc/pthread/mutex.rs`. A `pthread_mutex_t` is a magic number in 4 bytes
    and the id of the mutex in 8. -/

namespace TouchHLE.Environment
open Lib

def magicMutexattr : Nat := 0x4d754174
def magicMutex : Nat := 0x4d555458
def magicMutexStatic : Nat := 0x32AAABA7

def MutexType.ofNat? : Nat → Option MutexType
  | 0 => some .normal
  | 1 => some .errorcheck
  | 2 => some .recursive
  | _ => none

def pthreadMutexDefault : MutexType := .normal

def errnoOr {α : Type} : Except Int α → Int
  | .error e => e
  | .ok _ => 0

variable (self : Environment) (mutex : Nat)

def writeMutexT (mutex magic mutexId : Nat) : Except Panic Environment := self.memWrite mutex 12 (magic + 2 ^ 32 * mutexId)

def readMutexId : Except Panic Nat := do
  let value ← self.memRead mutex 12
  .ok (value / 2 ^ 32)

/-- The type that the attribute asks for, or an errno when its magic number is wrong. -/
def readMutexType (attr : Nat) : Except Panic (Except Int MutexType) := do
  if attr = 0 then .ok (.ok pthreadMutexDefault)
  else if (← self.memRead attr 4) ≠ magicMutexattr then .ok (.error EINVAL)
  else
    let value ← self.memRead attr 12
    match MutexType.ofNat? (value / 2 ^ 32 % 2 ^ 32) with
    | none => .error .mutexType
    | some type => .ok (.ok type)

def pthreadMutexInit (mutex attr : Nat) : Except Panic (Int × Environment) := do
  match ← self.readMutexType attr with
  | .error e => .ok (e, self)
  | .ok type =>
    let (mutexId, mutexState) ← self.mutexState.initMutex type
    let self ← { self with mutexState }.writeMutexT mutex magicMutex mutexId
    .ok (0, self)

def checkOrRegisterMutex : Except Panic (Except Int Unit × Environment) := do
  let magic ← self.memRead mutex 4
  if magic = magicMutexStatic then
    let (_, self) ← self.pthreadMutexInit mutex 0
    .ok (.ok (), self)
  else if magic = magicMutex then .ok (.ok (), self)
  else .ok (.error EINVAL, self)

def pthreadMutexLock : Except Panic (Control Int × Environment) := do
  match ← self.checkOrRegisterMutex mutex with
  | (.error e, self) => .ok (.returned e, self)
  | (.ok _, self) =>
    let mutexId ← self.readMutexId mutex
    match ← self.lockMutex mutexId with
    | (.returned result, self) => .ok (.returned (errnoOr result), self)
    | (.yielded, self) => .ok (.yielded, self)

def pthreadMutexTrylock : Except Panic (Control Int × Environment) := do
  match ← self.checkOrRegisterMutex mutex with
  | (.error e, self) => .ok (.returned e, self)
  | (.ok _, self) =>
    let mutexId ← self.readMutexId mutex
    if self.mutexState.mutexIsLocked mutexId &&
        !(self.mutexState.mutexIsRecursive mutexId && self.mutexState.mutexIsLockedBy mutexId self.currentThread) then
      .ok (.returned EBUSY, self)
    else self.pthreadMutexLock mutex

def pthreadMutexUnlock : Except Panic (Int × Environment) := do
  match ← self.checkOrRegisterMutex mutex with
  | (.error e, self) => .ok (e, self)
  | (.ok _, self) =>
    let mutexId ← self.readMutexId mutex
    let (result, self) ← self.unlockMutex mutexId
    .ok (errnoOr result, self)

def pthreadMutexDestroy : Except Panic (Int × Environment) := do
  match ← self.checkOrRegisterMutex mutex with
  | (.error e, self) => .ok (e, self)
  | (.ok _, self) =>
    let mutexId ← self.readMutexId mutex
    let self ← self.writeMutexT mutex 0 0xFFFFFFFFFFFFFFFF
    let (result, mutexState) ← self.mutexState.destroyMutex mutexId
    .ok (errnoOr result, { self with mutexState })

end TouchHLE.Environment
