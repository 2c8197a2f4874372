import TouchHLE.Mem.Allocator

/-! The part of the emulator's state that threads are about: `touchHLE/src/environment.rs`,
    `environment/mutex.rs`, `libc/pthread/cond.rs`, `libc/semaphore.rs` and the locks of `libc/stdio.rs`.

    One thread executes at a time, until it yields; the main loop then asks the scheduler for the next one. A thread that
    yields in a host function keeps the rest of it in its coroutine, a `HostContext`. Hash maps are functions, and counters
    of threads are not bounded. -/

namespace TouchHLE
namespace Environment
open Mem (NonZeroU32)

inductive Panic where
  | noThread | yieldBlocked | resumedBlocked | switchInactive
  | noMutex | mutexCount | lockCount | lockCountZero | relockLocked | selfLock | unlockFree | lockLevel
  | condAttr | condPresent | noCond | condUnlock | condMutex | condTimedOut | condBusy | noCurrMutex
  | timedOutTwice | timeoutWaking | timeoutLocked
  | noSemaphore | noReturnValue | waitingForDebugger | suspendCount | notSuspended
  | noFile | fileLockOwned | fileLockOwner | fileLockCount
  | mutexType | badTime | sliceRange | deadlocked
deriving DecidableEq

def EPERM : Int := 1
def EDEADLK : Int := 11
def EBUSY : Int := 16
def EINVAL : Int := 22
def ETIMEDOUT : Int := 60

inductive ThreadBlock where
  | notBlocked
  | sleeping (sleepingUntil : Nat)
  | mutex (mutexId : Nat)
  | semaphore (sem : Nat)
  | condition (cond : Nat) (deadline : Option Nat)
  | joining (joineeThread : Nat) (ptr : Nat)
  | waitingForDebugger
  /-- The suspend count, and the state that is restored upon resuming. -/
  | suspended (count : Nat) (previous : ThreadBlock)
  | fileObjectLock (file : Nat)
deriving DecidableEq

/-- What a thread goes on with: guest code, or the rest of the host function that yielded, with its local variables. -/
inductive HostContext where
  | guest
  | lockMutex (mutexId : Nat)
  | condWait (cond : Nat) (mutexId : Nat)
  | condTimedwait (cond : Nat) (mutexId : Nat)
  | returning (value : Int)
deriving DecidableEq

structure Thread where
  active : Bool
  blockedBy : ThreadBlock
  returnValue : Option Nat
  hostContext : HostContext

inductive MutexType where
  | normal
  | errorcheck
  | recursive
deriving DecidableEq

structure Mutex where
  type : MutexType
  waitingCount : Nat
  locked : Option (Nat × NonZeroU32)
deriving DecidableEq

structure MutexState where
  mutexes : Nat → Option Mutex
  mutexCount : Nat

structure CondHostObject where
  waiting : List Nat
  waking : List Nat
  currMutex : Option Nat
  timedOut : List Nat

structure SemaphoreHostObject where
  value : Int
  waiting : List Nat

structure FileLock where
  lockCount : Nat
  owningThread : Option Nat

end Environment

open Environment

structure Environment where
  currentThread : Nat
  threads : List Thread
  mutexState : MutexState
  conditionVariables : Nat → Option CondHostObject
  openSemaphores : Nat → Option SemaphoreHostObject
  fileStreams : Nat → Option FileLock
  mem : Nat → UInt8
  /-- The current thread executes; otherwise the main loop is about to schedule. -/
  executing : Bool

namespace Environment

def readLe (mem : Nat → UInt8) (ptr : Nat) : Nat → Nat
  | 0 => 0
  | n + 1 => (mem ptr).toNat + 256 * readLe mem (ptr + 1) n

/-- A number is read back as it was written. -/
theorem readLe_written (mem : Nat → UInt8) (ptr size value : Nat) : ∀ n k, k + n ≤ size →
    readLe (fun x => if ptr ≤ x ∧ x < ptr + size then .ofNat (value / 256 ^ (x - ptr)) else mem x) (ptr + k) n =
      value / 256 ^ k % 256 ^ n := by
  intro n
  induction n with
  | zero =>
    simp [readLe, Nat.mod_one]
  | succ n ih =>
    intro k hk
    have hin : ptr ≤ ptr + k ∧ ptr + k < ptr + size := by omega
    have hdiv : value / 256 ^ (k + 1) = value / 256 ^ k / 256 := by rw [Nat.pow_succ, Nat.div_div_eq_div_mul]
    rw [readLe, Nat.add_assoc, ih (k + 1) (by omega), hdiv, Nat.pow_succ', Nat.mod_mul]
    rw [if_pos hin, Nat.add_sub_cancel_left, UInt8.toNat_ofNat']

theorem readLe_congr {mem mem' : Nat → UInt8} :
    ∀ n ptr, (∀ x, ptr ≤ x → x < ptr + n → mem x = mem' x) → readLe mem ptr n = readLe mem' ptr n := by
  intro n
  induction n with
  | zero =>
    intro ptr _
    rfl
  | succ n ih =>
    intro ptr h
    rw [readLe, readLe, h ptr (Nat.le_refl ptr) (by omega), ih (ptr + 1) (fun x h1 h2 => h x (by omega) (by omega))]

def memRead (self : Environment) (ptr size : Nat) : Except Panic Nat :=
  if ptr + size ≤ 2 ^ 32 then .ok (readLe self.mem ptr size) else .error .sliceRange

def memWrite (self : Environment) (ptr size value : Nat) : Except Panic Environment :=
  if ptr + size ≤ 2 ^ 32 then
    .ok { self with mem := fun x => if ptr ≤ x ∧ x < ptr + size then .ofNat (value / 256 ^ (x - ptr)) else self.mem x }
  else .error .sliceRange

def thread (self : Environment) (thread : Nat) : Except Panic Thread :=
  match self.threads[thread]? with
  | none => .error .noThread
  | some t => .ok t

def setThread (self : Environment) (thread : Nat) (value : Thread) : Environment :=
  { self with threads := self.threads.set thread value }

/-- How a host function ends for now: it returns a value, or its thread has yielded. -/
inductive Control (α : Type) where
  | returned (value : α)
  | yielded

/-- The first half of `yield_thread`, up to the switch to the main loop; `rest` is what follows the call. -/
def yieldThread (self : Environment) (threadBlock : ThreadBlock) (rest : HostContext) : Except Panic Environment := do
  let current ← self.thread self.currentThread
  if current.blockedBy ≠ .notBlocked then .error .yieldBlocked
  else
    let self := self.setThread self.currentThread { current with blockedBy := threadBlock, hostContext := rest }
    .ok { self with executing := false }

end Environment
end TouchHLE
