import TouchHLE.Environment.System

/-! `@synchronized` blocks: `touchHLE/src/objc/synchronization.rs`, over the mutexes and threads of the environment. -/

namespace TouchHLE.Objc
open Lib Function
open Environment (Control)

inductive SyncPanic where
  | env (panic : Environment.Panic)
  | lock
  | exitedElsewhere
  | notEntered
deriving DecidableEq

/-- What is left of an `objc_sync_enter` that waits: nothing, or the mutex that it created has to be put into the map. -/
inductive Entering where
  | reentry (obj : Nat)
  | entry (obj mutexId : Nat)
deriving DecidableEq

def Entering.obj : Entering → Nat
  | .reentry obj | .entry obj _ => obj

structure SyncState where
  env : Environment
  syncMutexes : Nat → Option Nat
  /-- The threads that are in the middle of `objc_sync_enter`. -/
  entering : Nat → Option Entering

def ofEnv {α : Type} : Except Environment.Panic α → Except SyncPanic α
  | .ok a => .ok a
  | .error e => .error (.env e)

namespace SyncState

def entered (self : SyncState) : Entering → SyncState
  | .reentry _ => self
  | .entry obj mutexId => { self with syncMutexes := update self.syncMutexes obj (some mutexId) }

def lock (self : SyncState) (mutexId : Nat) (rest : Entering) : Except SyncPanic (Control Int × SyncState) := do
  let (control, env) ← ofEnv (self.env.lockMutex mutexId)
  match control with
  | .returned (.ok _) => .ok (.returned 0, { self with env }.entered rest)
  | .returned (.error _) => .error .lock
  | .yielded =>
    .ok (.yielded, { self with env, entering := update self.entering self.env.currentThread (some rest) })

def objcSyncEnter (self : SyncState) (obj : Nat) : Except SyncPanic (Control Int × SyncState) := do
  match self.syncMutexes obj with
  | some mutexId => self.lock mutexId (.reentry obj)
  | none =>
    let (mutexId, mutexState) ← ofEnv (self.env.mutexState.initMutex .recursive)
    { self with env := { self.env with mutexState } }.lock mutexId (.entry obj mutexId)

def objcSyncExit (self : SyncState) (obj : Nat) : Except SyncPanic (Int × SyncState) := do
  match self.syncMutexes obj with
  | some mutexId =>
    let (result, env) ← ofEnv (self.env.unlockMutex mutexId)
    match result with
    | .ok lockCount =>
      if lockCount = 0 then
        let (destroyed, mutexState) ← ofEnv (env.mutexState.destroyMutex mutexId)
        let self := { self with env := { env with mutexState } }
        match destroyed with
        | .ok () => .ok (0, { self with syncMutexes := update self.syncMutexes obj none })
        | .error _ => .ok (0, self)
      else .ok (0, { self with env })
    | .error _ => .error .exitedElsewhere
  | none => .error .notEntered

inductive Call where
  | enter (obj : Nat)
  | exit (obj : Nat)
  | other (call : Environment.Call)

inductive Result where
  | returned (value : Int)
  | yielded
  /-- A thread that had to wait comes back from `objc_sync_enter`. -/
  | entered (obj : Nat)
  | other (result : Environment.Result)

def call (self : SyncState) : Call → Except SyncPanic (Result × SyncState)
  | .enter obj => do
    match ← self.objcSyncEnter obj with
    | (.returned value, self) => .ok (.returned value, self)
    | (.yielded, self) => .ok (.yielded, self)
  | .exit obj => do
    let (value, self) ← self.objcSyncExit obj
    .ok (.returned value, self)
  | .other call => do
    let (result, env) ← ofEnv (self.env.call call)
    let self := { self with env }
    match result with
    | .resumed _ _ =>
      match self.entering env.currentThread with
      | some rest =>
        let self := { self with entering := update self.entering env.currentThread none }
        .ok (.entered rest.obj, self.entered rest)
      | none => .ok (.other result, self)
    | _ => .ok (.other result, self)

def start (env : Environment) : SyncState := ⟨env, fun _ => none, fun _ => none⟩

end SyncState
end TouchHLE.Objc
