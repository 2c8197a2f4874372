import Mathlib.Data.List.Basic
import TouchHLE.Lib.Run

/-! Named semaphores: `touchHLE/src/libc/semaphore.rs` and what `sem_increment`, `sem_decrement` and the scheduler of
    `environment.rs` do with them. The table of names and that of open semaphores share host objects (`Rc<RefCell<..>>`):
    both hold the object's place in the order of creation. -/

namespace TouchHLE.Libc
open Function

def oCreat : BitVec 32 := 0x200
def oExcl : BitVec 32 := 0x800

def semFailed : Nat := 0xFFFFFFFF

inductive SemPanic where
  | notOpen
  | unnamed
  | noGuestSem
deriving DecidableEq

structure SemaphoreHostObject where
  value : BitVec 32
  waiting : List Nat
  guestSem : Option Nat
  named : Bool
deriving DecidableEq

structure Semaphores where
  objects : Nat → SemaphoreHostObject
  created : Nat
  namedSemaphores : String → Option Nat
  openSemaphores : Nat → Option Nat

namespace Semaphores

def start : Semaphores := ⟨fun _ => ⟨0, [], none, false⟩, 0, fun _ => none, fun _ => none⟩

variable (s : Semaphores) (name : String)

def setObject (id : Nat) (object : SemaphoreHostObject) : Semaphores := { s with objects := update s.objects id object }

/-- The last lines of `sem_open`: the object gets a handle at the pointer that the guest allocator has returned. -/
def attach (id ptr : Nat) : Semaphores := { s.setObject id { s.objects id with guestSem := some ptr } with
    openSemaphores := update s.openSemaphores ptr (some id) }

def create (value : BitVec 32) : Semaphores :=
  { s.setObject s.created { value, waiting := [], guestSem := none, named := true } with
    created := s.created + 1
    namedSemaphores := update s.namedSemaphores name (some s.created) }

/-- `alloc` is the pointer that `env.mem.alloc_and_write(0)` returns, if it is called. -/
def semOpen (oflag value : BitVec 32) (alloc : Nat) : Nat × Semaphores :=
  match s.namedSemaphores name with
  | some id =>
    if oflag &&& oExcl = 0 then (semFailed, s)
    else
      match (s.objects id).guestSem with
      | some existingSem => (existingSem, s)
      | none => (alloc, s.attach id alloc)
  | none =>
    if oflag &&& oCreat = 0 then (semFailed, s)
    else (alloc, (s.create name value).attach s.created alloc)

def hostSem (sem : Nat) : Except SemPanic Nat :=
  match s.openSemaphores sem with
  | none => .error .notOpen
  | some id => .ok id

def semClose (sem : Nat) : Except SemPanic (Int × Semaphores) := do
  let id ← s.hostSem sem
  let s := { s with openSemaphores := update s.openSemaphores sem none }
  if !(s.objects id).named then .error .unnamed
  else if (s.objects id).guestSem.isNone then .error .noGuestSem
  else .ok (0, s.setObject id { s.objects id with guestSem := none })

def semUnlink : Int × Semaphores := (0, { s with namedSemaphores := update s.namedSemaphores name none })

def semIncrement (sem : Nat) : Except SemPanic Semaphores := do
  let id ← s.hostSem sem
  .ok (s.setObject id { s.objects id with value := (s.objects id).value + 1 })

inductive Decrement where
  | done
  | failed
  | blocked
deriving DecidableEq

def semDecrement (currentThread sem : Nat) (waitOnLock : Bool) : Except SemPanic (Decrement × Semaphores) := do
  let id ← s.hostSem sem
  let host := s.objects id
  if 0 < host.value.toInt then .ok (.done, s.setObject id { host with value := host.value - 1 })
  else if !waitOnLock then .ok (.failed, s)
  else .ok (.blocked, s.setObject id { host with waiting := host.waiting.insert currentThread })

/-- Does a thread that is blocked on a semaphore wake up? `current_thread` is the one that ran last, not the blocked one. -/
def schedule (s : Semaphores) (currentThread sem : Nat) : Except SemPanic (Bool × Semaphores) := do
  let id ← s.hostSem sem
  let host := s.objects id
  if 0 < host.value.toInt then
    .ok (true, s.setObject id { host with value := host.value - 1, waiting := host.waiting.erase currentThread })
  else .ok (false, s)

inductive Call where
  | semOpen (name : String) (oflag value : BitVec 32) (alloc : Nat)
  | semClose (sem : Nat)
  | semUnlink (name : String)
  | semPost (sem : Nat)
  | semWait (currentThread sem : Nat)
  | semTrywait (currentThread sem : Nat)
  /-- The scheduler at a thread in the middle of `sem_wait` -/
  | schedule (currentThread sem : Nat)

inductive Result where
  | sem (ptr : Nat)
  | returns (code : Int)
  | blocks
deriving DecidableEq

def call : Call → Except SemPanic (Result × Semaphores)
  | .semOpen name oflag value alloc => .ok (.sem (s.semOpen name oflag value alloc).1, (s.semOpen name oflag value alloc).2)
  | .semClose sem => do
    let r ← s.semClose sem
    .ok (.returns r.1, r.2)
  | .semUnlink name => .ok (.returns (s.semUnlink name).1, (s.semUnlink name).2)
  | .semPost sem => do
    let t ← s.semIncrement sem
    .ok (.returns 0, t)
  | .semWait currentThread sem => do
    let r ← s.semDecrement currentThread sem true
    .ok (if r.1 = .blocked then .blocks else .returns 0, r.2)
  | .semTrywait currentThread sem => do
    let r ← s.semDecrement currentThread sem false
    .ok (if r.1 = .done then .returns 0 else .returns (-1), r.2)
  | .schedule currentThread sem => do
    -- A thread that wakes up returns from `sem_wait`.
    let r ← s.schedule currentThread sem
    .ok (if r.1 then .returns 0 else .blocks, r.2)

end Semaphores

end TouchHLE.Libc
