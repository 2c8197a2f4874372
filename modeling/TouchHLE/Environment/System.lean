import TouchHLE.Environment.Scheduler

/-! All interleavings of the threads. A thread makes one call after the other; when it yields or ends, the main loop
    schedules. A guest can be interrupted between two calls, and can write to its memory. -/

namespace TouchHLE.Environment
open Lib

/-- What the executing thread can do, and what the main loop does (`schedule`). -/
inductive Call where
  | initMutex (type : MutexType)
  | destroyMutex (mutexId : Nat)
  | lockMutex (mutexId : Nat)
  | unlockMutex (mutexId : Nat)
  | pthreadMutexInit (mutex attr : Nat)
  | pthreadMutexDestroy (mutex : Nat)
  | pthreadMutexLock (mutex : Nat)
  | pthreadMutexTrylock (mutex : Nat)
  | pthreadMutexUnlock (mutex : Nat)
  | pthreadCondInit (cond attr : Nat)
  | pthreadCondDestroy (cond : Nat)
  | pthreadCondWait (cond mutex : Nat)
  | pthreadCondTimedwait (cond mutex absTime : Nat)
  | pthreadCondSignal (cond : Nat)
  | pthreadCondBroadcast (cond : Nat)
  | semInit (sem value : Nat)
  | semDestroy (sem : Nat)
  | semPost (sem : Nat)
  | semWait (sem : Nat)
  | semTrywait (sem : Nat)
  | flockfile (file : Nat)
  | ftrylockfile (file : Nat)
  | funlockfile (file : Nat)
  | newThread
  | exitThread (returnValue : Nat)
  | join (joineeThread ptr : Nat)
  | suspendThread (thread : Nat)
  | resumeThread (thread : Nat)
  | sleep (now duration : Nat)
  | interrupt
  | write (ptr : Nat) (value : UInt8)
  | schedule (clocks : List Clock)

inductive Result where
  | returned (value : Int)
  | yielded
  | created (id : Nat)
  /-- A thread executes again, with the value that the host function it was in returns, if it was in one. -/
  | resumed (context : HostContext) (value : Option Int)
  | slept

def Result.ofControl : Control Int → Result
  | .returned value => .returned value
  | .yielded => .yielded

def schedule (self : Environment) (clocks : List Clock) : Except Panic (Result × Environment) := do
  match ← self.scheduleNextThread clocks with
  | none => .ok (.slept, self)
  | some (nextThread, env) =>
    let env ← env.switchThread nextThread
    let thread ← env.thread nextThread
    let (value, env) ← env.resumeContext
    .ok (.resumed thread.hostContext value, env)

def call (self : Environment) : Call → Except Panic (Result × Environment)
  | .initMutex type => do
    let (mutexId, mutexState) ← self.mutexState.initMutex type
    .ok (.created mutexId, { self with mutexState })
  | .destroyMutex mutexId => do
    let (result, mutexState) ← self.mutexState.destroyMutex mutexId
    .ok (.returned (errnoOr result), { self with mutexState })
  | .lockMutex mutexId => do
    match ← self.lockMutex mutexId with
    | (.returned result, self) => .ok (.returned (errnoOr result), self)
    | (.yielded, self) => .ok (.yielded, self)
  | .unlockMutex mutexId => do
    let (result, self) ← self.unlockMutex mutexId
    .ok (.returned (errnoOr result), self)
  | .pthreadMutexInit mutex attr => do
    let (value, self) ← self.pthreadMutexInit mutex attr
    .ok (.returned value, self)
  | .pthreadMutexDestroy mutex => do
    let (value, self) ← self.pthreadMutexDestroy mutex
    .ok (.returned value, self)
  | .pthreadMutexLock mutex => do
    let (control, self) ← self.pthreadMutexLock mutex
    .ok (.ofControl control, self)
  | .pthreadMutexTrylock mutex => do
    let (control, self) ← self.pthreadMutexTrylock mutex
    .ok (.ofControl control, self)
  | .pthreadMutexUnlock mutex => do
    let (value, self) ← self.pthreadMutexUnlock mutex
    .ok (.returned value, self)
  | .pthreadCondInit cond attr => do
    let (value, self) ← self.pthreadCondInit cond attr
    .ok (.returned value, self)
  | .pthreadCondDestroy cond => do
    let (value, self) ← self.pthreadCondDestroy cond
    .ok (.returned value, self)
  | .pthreadCondWait cond mutex => do
    let (control, self) ← self.pthreadCondWait cond mutex
    .ok (.ofControl control, self)
  | .pthreadCondTimedwait cond mutex absTime => do
    let (control, self) ← self.pthreadCondTimedwait cond mutex absTime
    .ok (.ofControl control, self)
  | .pthreadCondSignal cond => do
    let (value, self) ← self.pthreadCondSignal cond
    .ok (.returned value, self)
  | .pthreadCondBroadcast cond => do
    let (value, self) ← self.pthreadCondBroadcast cond
    .ok (.returned value, self)
  | .semInit sem value => .ok (.returned 0, self.semInit sem value)
  | .semDestroy sem => .ok (.returned (self.semDestroy sem).1, (self.semDestroy sem).2)
  | .semPost sem => do
    let self ← self.semIncrement sem
    .ok (.returned 0, self)
  | .semWait sem => do
    match ← self.semDecrement sem true with
    | (.returned _, self) => .ok (.returned 0, self)
    | (.yielded, self) => .ok (.yielded, self)
  | .semTrywait sem => do
    match ← self.semDecrement sem false with
    | (.returned success, self) => .ok (.returned (if success then 0 else -1), self)
    | (.yielded, self) => .ok (.yielded, self)
  | .flockfile file => do
    match ← self.flockfile file with
    | (.returned _, self) => .ok (.returned 0, self)
    | (.yielded, self) => .ok (.yielded, self)
  | .ftrylockfile file => do
    let (value, self) ← self.ftrylockfile file
    .ok (.returned value, self)
  | .funlockfile file => do
    let self ← self.funlockfile file
    .ok (.returned 0, self)
  | .newThread => .ok (.created self.newThread.1, self.newThread.2)
  | .exitThread returnValue => do
    let self ← self.exitThread returnValue
    .ok (.yielded, self)
  | .join joineeThread ptr => do
    let self ← self.joinWithThread joineeThread ptr
    .ok (.yielded, self)
  | .suspendThread thread => do
    let self ← self.suspendThread thread
    .ok (.returned 0, self)
  | .resumeThread thread => do
    let self ← self.resumeThread thread
    .ok (.returned 0, self)
  | .sleep now duration => do
    let self ← self.sleep now duration
    .ok (.yielded, self)
  | .interrupt => do
    let self ← self.yieldThread .notBlocked .guest
    .ok (.yielded, self)
  | .write ptr value => .ok (.returned 0, { self with mem := Function.update self.mem ptr value })
  | .schedule clocks => self.schedule clocks

/-- The main loop schedules when no thread executes, and only the executing thread makes calls. -/
def Enabled (self : Environment) : Call → Prop
  | .schedule _ => self.executing = false
  | _ => self.executing = true

instance (self : Environment) (call : Call) : Decidable (self.Enabled call) := by
  cases call <;> exact inferInstanceAs (Decidable (_ = _))

def start (mem : Nat → UInt8) (fileStreams : Nat → Option FileLock) : Environment where
  currentThread := 0
  threads := [⟨true, .notBlocked, none, .guest⟩]
  mutexState := ⟨fun _ => none, 0⟩
  conditionVariables := fun _ => none
  openSemaphores := fun _ => none
  fileStreams := fileStreams
  mem := mem
  executing := true

/-- A guest memory with a mutex at 16 and a condition variable at 64, both initialised statically, and zeros. -/
def staticMem (ptr : Nat) : UInt8 :=
  if 16 ≤ ptr ∧ ptr < 20 then .ofNat (magicMutexStatic / 256 ^ (ptr - 16))
  else if 64 ≤ ptr ∧ ptr < 68 then .ofNat (magicCondStatic / 256 ^ (ptr - 64))
  else 0

end TouchHLE.Environment
