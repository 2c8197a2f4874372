import TouchHLE.Environment.Blocking
import TouchHLE.Libc.Pthread.Cond

/-! The scheduler, `schedule_next_thread` of `touchHLE/src/environment.rs`, and the switch to the thread that it picks.
    The clocks that a look at a candidate may read are inputs. -/

namespace TouchHLE.Environment
open Lib

/-- What the clocks show, in nanoseconds, when the scheduler looks at each of the threads. -/
structure Clock where
  instant : Nat → Nat
  system : Nat → Nat

inductive Examined where
  | scheduled (env : Environment)
  | asleep (sleepingUntil : Nat)
  | passed

variable (self : Environment)

def unblock (threadId : Nat) : Except Panic Environment := do
  let thread ← self.thread threadId
  .ok (self.setThread threadId { thread with blockedBy := .notBlocked })

/-- A thread that waits on a condition variable: it is the next to be woken and can have the mutex, or its time is up. -/
def examineCondition (clock : Clock) (threadId cond : Nat) (deadline : Option Nat) :
    Except Panic Examined := do
  let hostCond ← self.hostCond cond
  match hostCond.currMutex with
  | none => .error .noCurrMutex
  | some mutex =>
    if hostCond.waking.head? = some threadId && !self.mutexState.mutexIsLocked mutex then
      let self := self.setCond cond (some { hostCond with waking := hostCond.waking.tail })
      let self ← self.unblock threadId
      let self ← self.relockUnblockedMutexForThread threadId mutex
      .ok (.scheduled self)
    else if deadline.any (· ≤ clock.system threadId) then
      if threadId ∈ hostCond.timedOut then .error .timedOutTwice
      else if hostCond.waking ≠ [] then .error .timeoutWaking
      else
        let self := self.setCond cond (some { hostCond with
          timedOut := hostCond.timedOut ++ [threadId], waiting := hostCond.waiting.filter (· ≠ threadId) })
        if self.mutexState.mutexIsLocked mutex then .error .timeoutLocked
        else
          let self ← self.unblock threadId
          let self ← self.relockUnblockedMutexForThread threadId mutex
          .ok (.scheduled self)
    else .ok .passed

def examine (clock : Clock) (threadId : Nat) : Except Panic Examined := do
  let candidate ← self.thread threadId
  if !candidate.active then .ok .passed
  else
    match candidate.blockedBy with
    | .sleeping sleepingUntil =>
      if sleepingUntil ≤ clock.instant threadId then .ok (.scheduled (← self.unblock threadId))
      else .ok (.asleep sleepingUntil)
    | .mutex mutexId =>
      if !self.mutexState.mutexIsLocked mutexId then
        let self ← self.unblock threadId
        .ok (.scheduled (← self.relockUnblockedMutexForThread threadId mutexId))
      else .ok .passed
    | .semaphore sem =>
      let hostSem ← self.hostSem sem
      if hostSem.value > 0 then
        let self := self.setSem sem (some ⟨hostSem.value - 1, hostSem.waiting.erase self.currentThread⟩)
        .ok (.scheduled (← self.unblock threadId))
      else .ok .passed
    | .condition cond deadline => self.examineCondition clock threadId cond deadline
    | .joining joineeThread ptr =>
      let joinee ← self.thread joineeThread
      if !joinee.active then
        if ptr = 0 then .ok (.scheduled (← self.unblock threadId))
        else
          match joinee.returnValue with
          | none => .error .noReturnValue
          | some value =>
            let self ← self.memWrite ptr 4 value
            .ok (.scheduled (← self.unblock threadId))
      else .ok .passed
    | .notBlocked => .ok (.scheduled self)
    | .waitingForDebugger => .error .waitingForDebugger
    | .suspended count _ => if count > 0 then .ok .passed else .error .suspendCount
    | .fileObjectLock file =>
      let (acquired, self) ← self.tryAcquireFileObjectLock file threadId
      if acquired then .ok (.scheduled (← self.unblock threadId)) else .ok .passed

inductive Pass where
  | scheduled (threadId : Nat) (env : Environment)
  | sleep (nextAwakening : Nat)

def scan (self : Environment) (clock : Clock) : List Nat → Option Nat → Except Panic Pass
  | [], some nextAwakening => .ok (.sleep nextAwakening)
  | [], none => .error .deadlocked
  | threadId :: candidates, nextAwakening => do
    match ← self.examine clock threadId with
    | .scheduled env => .ok (.scheduled threadId env)
    | .asleep sleepingUntil => self.scan clock candidates (some (nextAwakening.elim sleepingUntil (min · sleepingUntil)))
    | .passed => self.scan clock candidates nextAwakening

/-- The threads in the order in which they are looked at, from the one after the current thread on. -/
def candidates : List Nat :=
  (List.range self.threads.length).map fun i => (self.currentThread + 1 + i) % self.threads.length

/-- The passes of `schedule_next_thread`, one for each reading of the clocks; it has not returned yet when they run out. -/
def scheduleNextThread (self : Environment) : List Clock → Except Panic (Option (Nat × Environment))
  | [] => .ok none
  | clock :: clocks => do
    match ← self.scan clock self.candidates none with
    | .scheduled threadId env => .ok (some (threadId, env))
    | .sleep _ => self.scheduleNextThread clocks

/-- The second half of `yield_thread` and the rest of the host function that called it, if any, with what it returns. -/
def resumeContext : Except Panic (Option Int × Environment) := do
  let current ← self.thread self.currentThread
  if current.blockedBy ≠ .notBlocked then .error .resumedBlocked
  else
    let back := self.setThread self.currentThread { current with hostContext := .guest }
    match current.hostContext with
    | .guest => .ok (none, back)
    | .returning value => .ok (some value, back)
    | .lockMutex _ => .ok (some 0, back)
    | .condWait cond _ =>
      let hostObject ← self.hostCond cond
      if self.currentThread ∈ hostObject.timedOut then .error .condTimedOut else .ok (some 0, back)
    | .condTimedwait cond _ =>
      let hostObject ← self.hostCond cond
      if self.currentThread ∈ hostObject.timedOut then
        .ok (some ETIMEDOUT,
          back.setCond cond (some { hostObject with timedOut := hostObject.timedOut.filter (· ≠ self.currentThread) }))
      else .ok (some 0, back)

def switchThread (newThread : Nat) : Except Panic Environment := do
  let thread ← self.thread newThread
  if newThread ≠ self.currentThread ∧ thread.active = false then .error .switchInactive
  else .ok { self with currentThread := newThread, executing := true }

end TouchHLE.Environment
