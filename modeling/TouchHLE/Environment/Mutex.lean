import TouchHLE.Environment.State

/-! The internal mutex interface: `touchHLE/src/environment/mutex.rs`. -/

namespace TouchHLE.Environment
open Lib
open Mem (NonZeroU32)

namespace MutexState

variable (self : MutexState) (mutexId : Nat)

def get : Except Panic Mutex :=
  match self.mutexes mutexId with
  | none => .error .noMutex
  | some mutex => .ok mutex

def insert (mutex : Mutex) : MutexState := { self with mutexes := Function.update self.mutexes mutexId (some mutex) }

def initMutex (mutexType : MutexType) : Except Panic (Nat × MutexState) :=
  let mutexId := self.mutexCount
  if self.mutexCount + 1 < 2 ^ 64 then
    .ok (mutexId, { self with mutexCount := self.mutexCount + 1 }.insert mutexId ⟨mutexType, 0, none⟩)
  else .error .mutexCount

def destroyMutex : Except Panic (Except Int Unit × MutexState) := do
  let mutex ← self.get mutexId
  if mutex.locked.isSome then .ok (.error EBUSY, self)
  else if mutex.waitingCount ≠ 0 then .ok (.error EBUSY, self)
  else .ok (.ok (), { self with mutexes := Function.update self.mutexes mutexId none })

def mutexIsLocked : Bool := (self.mutexes mutexId).any fun mutex => mutex.locked.isSome

def mutexIsRecursive : Bool := (self.mutexes mutexId).any fun mutex => mutex.type = .recursive

def mutexIsLockedBy (mutexId thread : Nat) : Bool := (self.mutexes mutexId).any fun mutex =>
    match mutex.locked with
    | some (lockThread, _) => lockThread = thread
    | none => false

end MutexState

def setMutex (self : Environment) (mutexId : Nat) (mutex : Mutex) : Environment :=
  { self with mutexState := self.mutexState.insert mutexId mutex }

/-- The lock goes to a thread that was blocked; only the scheduler uses this. -/
def relockUnblockedMutexForThread (self : Environment) (threadId mutexId : Nat) : Except Panic Environment := do
  let mutex ← self.mutexState.get mutexId
  if mutex.locked.isSome then .error .relockLocked
  else
    let mutex := { mutex with locked := some (threadId, ⟨1, Nat.one_pos⟩) }
    if mutex.waitingCount > 0 then .ok (self.setMutex mutexId { mutex with waitingCount := mutex.waitingCount - 1 })
    else .ok (self.setMutex mutexId mutex)

/-- `Ok` with the lock count or `Err` with an errno, unless the thread has to wait. -/
def lockMutex (self : Environment) (mutexId : Nat) : Except Panic (Control (Except Int Nat) × Environment) := do
  let mutex ← self.mutexState.get mutexId
  match mutex.locked with
  | none => .ok (.returned (.ok 1), self.setMutex mutexId { mutex with locked := some (self.currentThread, ⟨1, Nat.one_pos⟩) })
  | some (lockingThread, lockCount) =>
    if lockingThread = self.currentThread then
      match mutex.type with
      | .normal => .error .selfLock
      | .errorcheck => .ok (.returned (.error EDEADLK), self)
      | .recursive =>
        if lockCount.get + 1 < 2 ^ 32 then
          .ok (.returned (.ok (lockCount.get + 1)),
            self.setMutex mutexId { mutex with locked := some (lockingThread, ⟨lockCount.get + 1, Nat.succ_pos _⟩) })
        else .error .lockCount
    else
      -- The waiting count keeps the mutex from being destroyed; `relock_unblocked_mutex_for_thread` takes it back.
      let self := self.setMutex mutexId { mutex with waitingCount := mutex.waitingCount + 1 }
      let self ← self.yieldThread (.mutex mutexId) (.lockMutex mutexId)
      .ok (.yielded, self)

def unlockMutex (self : Environment) (mutexId : Nat) : Except Panic (Except Int Nat × Environment) := do
  let mutex ← self.mutexState.get mutexId
  match mutex.locked with
  | none =>
    match mutex.type with
    | .normal => .error .unlockFree
    | .errorcheck | .recursive => .ok (.error EPERM, self)
  | some (lockingThread, lockCount) =>
    if lockingThread ≠ self.currentThread ∧ mutex.type ≠ .normal then .ok (.error EPERM, self)
    else if lockCount.get = 1 then .ok (.ok 0, self.setMutex mutexId { mutex with locked := none })
    else if mutex.type ≠ .recursive then .error .lockLevel
    else if h : 0 < lockCount.get - 1 then
      .ok (.ok (lockCount.get - 1), self.setMutex mutexId { mutex with locked := some (lockingThread, ⟨lockCount.get - 1, h⟩) })
    else .error .lockCountZero

end TouchHLE.Environment
