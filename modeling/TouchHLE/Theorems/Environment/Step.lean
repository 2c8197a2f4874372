import TouchHLE.Environment.System

/-! What a call can do to the threads, the mutexes and the condition variables, as a sequence of small steps. Each step
    carries the locks that it takes and releases. Everything about locks in runs is proved for the steps. -/

namespace TouchHLE.Environment
open Lib
open Mem (NonZeroU32)

/-- What happens to the locks: a thread takes a mutex, takes it back at the end of a wait on a condition variable, or gives
    it up; and a mutex is destroyed. -/
inductive Event where
  | acquired (thread mutexId : Nat)
  | regained (thread mutexId : Nat)
  | released (thread mutexId : Nat)
  | destroyed (mutexId : Nat)
deriving DecidableEq

/-- A block that has nothing to do with a mutex or a condition variable, nor with suspension. -/
def ThreadBlock.Plain : ThreadBlock → Prop
  | .notBlocked | .sleeping _ | .semaphore _ | .joining _ _ | .fileObjectLock _ => True
  | _ => False

theorem ThreadBlock.plain_notBlocked : ThreadBlock.notBlocked.Plain := trivial

def ThreadBlock.underlying : ThreadBlock → ThreadBlock
  | .suspended _ previous => previous.underlying
  | block => block

def HostContext.waiting (cond mutexId : Nat) : Option Nat → HostContext
  | none => .condWait cond mutexId
  | some _ => .condTimedwait cond mutexId

def yielded (s : Environment) (th : Thread) (block : ThreadBlock) (rest : HostContext) : Environment :=
  { s.setThread s.currentThread { th with blockedBy := block, hostContext := rest } with executing := false }

def executes (s : Environment) (i : Nat) (th : Thread) : Environment :=
  { s.setThread i { th with blockedBy := .notBlocked, hostContext := .guest } with currentThread := i, executing := true }

def Mutex.heldBy (mutex : Mutex) (thread : Nat) : Mutex := { mutex with locked := some (thread, ⟨1, Nat.one_pos⟩) }

inductive Step (s : Environment) : List Event → Environment → Prop where
  | memory (mem : Nat → UInt8) : Step s [] { s with mem }
  | semaphores (openSemaphores : Nat → Option SemaphoreHostObject) : Step s [] { s with openSemaphores }
  | files (fileStreams : Nat → Option FileLock) : Step s [] { s with fileStreams }
  | initMutex (type : MutexType) : Step s [] { s with mutexState :=
        { s.mutexState with mutexCount := s.mutexState.mutexCount + 1 }.insert s.mutexState.mutexCount ⟨type, 0, none⟩ }
  | destroyMutex {m : Nat} {x : Mutex} (present : s.mutexState.mutexes m = some x) (free : x.locked = none)
      (unwanted : x.waitingCount = 0) :
      Step s [.destroyed m] { s with mutexState := { s.mutexState with mutexes := Function.update s.mutexState.mutexes m none } }
  | lock {m : Nat} {x : Mutex} (present : s.mutexState.mutexes m = some x) (free : x.locked = none) :
      Step s [.acquired s.currentThread m] (s.setMutex m (x.heldBy s.currentThread))
  | lockAgain {m : Nat} {x : Mutex} {n n' : NonZeroU32} (present : s.mutexState.mutexes m = some x)
      (recursive : x.type = .recursive) (held : x.locked = some (s.currentThread, n)) (more : n'.get = n.get + 1) :
      Step s [.acquired s.currentThread m] (s.setMutex m { x with locked := some (s.currentThread, n') })
  | unlock {m u : Nat} {x : Mutex} {n : NonZeroU32} (present : s.mutexState.mutexes m = some x)
      (held : x.locked = some (u, n)) (once : n.get = 1) (own : u = s.currentThread ∨ x.type = .normal) :
      Step s [.released s.currentThread m] (s.setMutex m { x with locked := none })
  | unlockOnce {m : Nat} {x : Mutex} {n n' : NonZeroU32} (present : s.mutexState.mutexes m = some x)
      (recursive : x.type = .recursive) (held : x.locked = some (s.currentThread, n)) (less : n'.get + 1 = n.get) :
      Step s [.released s.currentThread m] (s.setMutex m { x with locked := some (s.currentThread, n') })
  | lockBlock {m u : Nat} {x : Mutex} {n : NonZeroU32} {th : Thread} (present : s.mutexState.mutexes m = some x)
      (held : x.locked = some (u, n)) (other : u ≠ s.currentThread) (current : s.threads[s.currentThread]? = some th)
      (runs : th.blockedBy = .notBlocked) :
      Step s [] ((s.setMutex m { x with waitingCount := x.waitingCount + 1 }).yielded th (.mutex m) (.lockMutex m))
  | block {th : Thread} {b : ThreadBlock} {rest : HostContext} (current : s.threads[s.currentThread]? = some th)
      (runs : th.blockedBy = .notBlocked) (plain : b.Plain)
      (back : (rest = .guest ∧ b = .notBlocked) ∨ ∃ v, b ≠ .notBlocked ∧ rest = .returning v) :
      Step s [] (s.yielded th b rest)
  | condInit {c : Nat} (absent : s.conditionVariables c = none) : Step s [] (s.setCond c (some ⟨[], [], none, []⟩))
  | condDestroy {c : Nat} {o : CondHostObject} (present : s.conditionVariables c = some o) (unwaited : o.waiting = [])
      (unwaking : o.waking = []) : Step s [] (s.setCond c none)
  | condBlock {c m : Nat} {o : CondHostObject} {d : Option Nat} {th : Thread} (present : s.conditionVariables c = some o)
      (mutex : o.currMutex = some m ∨ (o.waking = [] ∧ o.waiting = [])) (known : ∃ x, s.mutexState.mutexes m = some x)
      (current : s.threads[s.currentThread]? = some th) (runs : th.blockedBy = .notBlocked) :
      Step s [] ((s.setCond c (some { o with currMutex := some m, waiting := o.waiting ++ [s.currentThread] })).yielded th
        (.condition c d) (.waiting c m d))
  | signal {c i : Nat} {o : CondHostObject} {waiting : List Nat} (present : s.conditionVariables c = some o)
      (first : o.waiting = i :: waiting) : Step s [] (s.setCond c (some { o with waiting, waking := o.waking ++ [i] }))
  | broadcast {c : Nat} {o : CondHostObject} (present : s.conditionVariables c = some o) :
      Step s [] (s.setCond c (some { o with waiting := [], waking := o.waking ++ o.waiting }))
  | newThread : Step s [] s.newThread.2
  | exitThread {th : Thread} {v : Nat} (current : s.threads[s.currentThread]? = some th) :
      Step s [] { s.setThread s.currentThread { th with active := false, returnValue := some v } with executing := false }
  /-- Suspending and resuming change the wrapper only. -/
  | wrap {i : Nat} {th : Thread} {b : ThreadBlock} (thread : s.threads[i]? = some th)
      (same : b.underlying = th.blockedBy.underlying) : Step s [] (s.setThread i { th with blockedBy := b })
  | wake {i : Nat} {th : Thread} (thread : s.threads[i]? = some th) (active : th.active = true) (plain : th.blockedBy.Plain) :
      Step s [] (s.executes i th)
  | wakeMutex {i m : Nat} {th : Thread} {x : Mutex} (thread : s.threads[i]? = some th) (active : th.active = true)
      (blocked : th.blockedBy = .mutex m) (present : s.mutexState.mutexes m = some x) (free : x.locked = none) :
      Step s [.acquired i m] ((s.setMutex m { x.heldBy i with waitingCount := x.waitingCount - 1 }).executes i th)
  | wakeSignalled {i m c : Nat} {d : Option Nat} {th : Thread} {x : Mutex} {o : CondHostObject} {waking : List Nat}
      (thread : s.threads[i]? = some th) (active : th.active = true) (blocked : th.blockedBy = .condition c d)
      (cond : s.conditionVariables c = some o) (mutex : o.currMutex = some m) (first : o.waking = i :: waking)
      (present : s.mutexState.mutexes m = some x) (free : x.locked = none) :
      Step s [.regained i m]
        (((s.setCond c (some { o with waking })).setMutex m { x.heldBy i with waitingCount := x.waitingCount - 1 }).executes i th)
  | wakeTimedOut {i m c d : Nat} {th : Thread} {x : Mutex} {o : CondHostObject}
      (thread : s.threads[i]? = some th) (active : th.active = true) (blocked : th.blockedBy = .condition c (some d))
      (cond : s.conditionVariables c = some o) (mutex : o.currMutex = some m) (unwaking : o.waking = [])
      (present : s.mutexState.mutexes m = some x) (free : x.locked = none) :
      Step s [.regained i m] (((s.setCond c (some { o with waiting := o.waiting.filter (· ≠ i) })).setMutex m
        { x.heldBy i with waitingCount := x.waitingCount - 1 }).executes i th)

inductive Steps (s : Environment) : List Event → Environment → Prop where
  | refl : Steps s [] s
  | step {es e : List Event} {t u : Environment} : Steps s es t → Step t e u → Steps s (es ++ e) u

namespace Steps
variable {s t u : Environment} {es e : List Event}

theorem one (h : Step s e t) : Steps s e t := by
  have := Steps.refl.step h
  rwa [List.nil_append] at this

theorem trans (h : Steps s es t) (h' : Steps t e u) : Steps s (es ++ e) u := by
  induction h' with
  | refl => rwa [List.append_nil]
  | step _ hst ih =>
    rw [← List.append_assoc]
    exact ih.step hst

/-- A property of the state and of what has happened to the locks so far that every step keeps. -/
theorem invariant {P : List Event → Environment → Prop} {log} (h : Steps s es t) (h₀ : P log s)
    (keeps : ∀ log s e t, P log s → Step s e t → P (log ++ e) t) : P (log ++ es) t := by
  induction h with
  | refl => rwa [List.append_nil]
  | step _ hst ih =>
    rw [← List.append_assoc]
    exact keeps _ _ _ _ ih hst

end Steps

end TouchHLE.Environment
