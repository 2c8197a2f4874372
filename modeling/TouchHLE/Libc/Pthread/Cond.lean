import TouchHLE.Libc.Pthread.Mutex

/-! Condition variables: `touchHLE/src/libc/pthread/cond.rs`. A `pthread_cond_t` is a magic number in 4 bytes and
    24 unused bytes. -/

namespace TouchHLE.Environment
open Lib

def magicCond : Nat := 0x434f4e44
def magicCondStatic : Nat := 0x3CB0B1BB

variable (self : Environment) (cond : Nat)

def hostCond : Except Panic CondHostObject :=
  match self.conditionVariables cond with
  | none => .error .noCond
  | some hostObject => .ok hostObject

def setCond (hostObject : Option CondHostObject) : Environment :=
  { self with conditionVariables := Function.update self.conditionVariables cond hostObject }

def pthreadCondInit (cond attr : Nat) : Except Panic (Int × Environment) := do
  if attr ≠ 0 then .error .condAttr
  else
    let self ← self.memWrite cond 28 magicCond
    if (self.conditionVariables cond).isSome then .error .condPresent
    else .ok (0, self.setCond cond (some ⟨[], [], none, []⟩))

def checkOrRegisterCond : Except Panic (Except Int Unit × Environment) := do
  let magic ← self.memRead cond 4
  if magic = magicCondStatic then
    let (_, self) ← self.pthreadCondInit cond 0
    .ok (.ok (), self)
  else if magic = magicCond then .ok (.ok (), self)
  else .ok (.error EINVAL, self)

def condBlock (cond mutex : Nat) (deadline : Option Nat) (rest : Nat → HostContext) :
    Except Panic (Control Int × Environment) := do
  match ← self.checkOrRegisterCond cond with
  | (.error e, self) => .ok (.returned e, self)
  | (.ok _, self) =>
    let (res, self) ← self.pthreadMutexUnlock mutex
    if res ≠ 0 then .error .condUnlock
    else
      let mutexId ← self.readMutexId mutex
      let hostObject ← self.hostCond cond
      -- The mutex used must be the one of the threads that wait already.
      if hostObject.currMutex = some mutexId ∨ (hostObject.waking = [] ∧ hostObject.waiting = []) then
        let self := self.setCond cond (some { hostObject with
          currMutex := some mutexId, waiting := hostObject.waiting ++ [self.currentThread] })
        let self ← self.yieldThread (.condition cond deadline) (rest mutexId)
        .ok (.yielded, self)
      else .error .condMutex

/-- The absolute time is a `timespec` of two `i32`, seconds and nanoseconds; the deadline is in nanoseconds. -/
def pthreadCondTimedwait (cond mutex absTime : Nat) : Except Panic (Control Int × Environment) := do
  let tvSec ← self.memRead absTime 4
  let tvNsec ← self.memRead (absTime + 4) 4
  if tvSec < 2 ^ 31 ∧ tvNsec < 2 ^ 31 then
    self.condBlock cond mutex (some (tvSec * 10 ^ 9 + tvNsec)) (.condTimedwait cond)
  else .error .badTime

def pthreadCondWait (cond mutex : Nat) : Except Panic (Control Int × Environment) :=
  self.condBlock cond mutex none (.condWait cond)

def pthreadCondSignal : Except Panic (Int × Environment) := do
  match ← self.checkOrRegisterCond cond with
  | (.error e, self) => .ok (e, self)
  | (.ok _, self) =>
    let hostObject ← self.hostCond cond
    match hostObject.waiting with
    | tid :: waiting =>
      .ok (0, self.setCond cond (some { hostObject with waiting, waking := hostObject.waking ++ [tid] }))
    | [] => .ok (0, self)

def pthreadCondBroadcast : Except Panic (Int × Environment) := do
  match ← self.checkOrRegisterCond cond with
  | (.error e, self) => .ok (e, self)
  | (.ok _, self) =>
    let hostObject ← self.hostCond cond
    .ok (0, self.setCond cond (some { hostObject with waiting := [], waking := hostObject.waking ++ hostObject.waiting }))

def pthreadCondDestroy : Except Panic (Int × Environment) := do
  match ← self.checkOrRegisterCond cond with
  | (.error e, self) => .ok (e, self)
  | (.ok _, self) =>
    let oldObject ← self.hostCond cond
    if oldObject.waiting = [] ∧ oldObject.waking = [] then .ok (0, self.setCond cond none)
    else .error .condBusy

end TouchHLE.Environment
