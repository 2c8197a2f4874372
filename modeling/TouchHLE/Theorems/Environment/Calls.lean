import TouchHLE.Theorems.Environment.Step

/-! What each call does to the threads, the queues of condition variables, the semaphores and the locks of files, said
    exactly, and as a sequence of steps. The mutexes and the guest memory are left out of the exact part. -/

namespace TouchHLE.Environment
open Lib Function
variable {m : Nat} (s : Environment) (clock : Clock)

def ready (i : Nat) : Bool :=
  match s.threads[i]? with
  | none => false
  | some th => th.active &&
    match th.blockedBy with
    | .notBlocked => true
    | .sleeping sleepingUntil => decide (sleepingUntil ≤ clock.instant i)
    | .mutex m => !s.mutexState.mutexIsLocked m
    | .semaphore sem => (s.openSemaphores sem).any fun o => decide (0 < o.value)
    | .condition c deadline => (s.conditionVariables c).any fun o => o.currMutex.any fun m =>
      !s.mutexState.mutexIsLocked m &&
        (decide (o.waking.head? = some i) || (o.waking.isEmpty && deadline.any (· ≤ clock.system i)))
    | .joining joinee _ => s.threads[joinee]?.any fun th => !th.active
    | .waitingForDebugger => false
    | .suspended _ _ => false
    | .fileObjectLock file =>
      match s.fileHostObj file with
      | .ok lock => decide (lock.lockCount = 0)
      | .error _ => false

def asleep (i : Nat) : Bool :=
  match s.threads[i]? with
  | none => false
  | some th => th.active &&
    match th.blockedBy with
    | .sleeping _ => true
    | _ => false

def firstReady : Option Nat := s.candidates.find? (s.ready clock)

def reached : List Nat := Vec.upTo (s.ready clock) s.candidates

def readings (clocks : List Clock) : List Clock := Vec.upTo (fun clock => (s.firstReady clock).isSome) clocks

def Panic.ofWait : Panic → Bool
  | .noMutex | .relockLocked | .timedOutTwice | .timeoutWaking | .timeoutLocked | .deadlocked => true
  | _ => false

def core : Environment := { s with mutexState := ⟨fun _ => none, 0⟩, mem := fun _ => 0 }

/-- The host object that a condition variable has once it is registered. -/
def condAt (c : Nat) : CondHostObject := (s.conditionVariables c).getD ⟨[], [], none, []⟩

namespace CondHostObject

def enqueue (o : CondHostObject) (i m : Nat) : CondHostObject := { o with currMutex := some m, waiting := o.waiting ++ [i] }

def signal (o : CondHostObject) : CondHostObject :=
  match o.waiting with
  | [] => o
  | i :: waiting => { o with waiting, waking := o.waking ++ [i] }

def broadcast (o : CondHostObject) : CondHostObject := { o with waiting := [], waking := o.waking ++ o.waiting }

end CondHostObject

namespace ThreadBlock

def suspend : ThreadBlock → ThreadBlock
  | .suspended count previous => .suspended (count + 1) previous
  | block => .suspended 1 block

def suspendCount : ThreadBlock → Nat
  | .suspended count _ => count
  | _ => 0

def isSuspended : ThreadBlock → Bool
  | .suspended _ _ => true
  | _ => false

theorem underlying_of_not_suspended {b : ThreadBlock} (h : b.isSuspended = false) : b.underlying = b := by
  cases b with
  | suspended => cases h
  | _ => rfl

end ThreadBlock

def Yields (b : ThreadBlock) (rest : HostContext) (t : Environment) : Prop :=
  ∃ th, s.threads[s.currentThread]? = some th ∧ th.blockedBy = .notBlocked ∧ t.core = (s.yielded th b rest).core

/-- What else the end of a wait changes, by what thread `i` waited for. -/
inductive Woken (s : Environment) (i : Nat) : ThreadBlock → Environment → Prop where
  | notBlocked : Woken s i .notBlocked s
  | sleeping (sleepingUntil : Nat) : Woken s i (.sleeping sleepingUntil) s
  | joining (joinee ptr : Nat) : Woken s i (.joining joinee ptr) s
  | mutex (m : Nat) : Woken s i (.mutex m) s
  | semaphore {sem : Nat} {o : SemaphoreHostObject} (present : s.openSemaphores sem = some o) (positive : 0 < o.value) :
      Woken s i (.semaphore sem) (s.setSem sem (some ⟨o.value - 1, o.waiting.erase s.currentThread⟩))
  | signalled {c : Nat} {d : Option Nat} {o : CondHostObject} {waking : List Nat} (cond : s.conditionVariables c = some o)
      (first : o.waking = i :: waking) : Woken s i (.condition c d) (s.setCond c (some { o with waking }))
  | timedOut {c d : Nat} {o : CondHostObject} (cond : s.conditionVariables c = some o) (unwaking : o.waking = []) :
      Woken s i (.condition c (some d)) (s.setCond c (some { o with waiting := o.waiting.filter (· ≠ i) }))
  | file {file : Nat} {lock : FileLock} (object : s.fileHostObj file = .ok lock) (free : lock.lockCount = 0)
      (unowned : lock.owningThread = none) : Woken s i (.fileObjectLock file) (s.setFile file ⟨1, some i⟩)

def Effect (r : Result) (t : Environment) : Call → Prop
  | .initMutex _ | .destroyMutex _ | .unlockMutex _ | .pthreadMutexInit _ _ | .pthreadMutexDestroy _
  | .pthreadMutexUnlock _ | .write _ _ => t.core = s.core
  | .lockMutex _ | .pthreadMutexLock _ | .pthreadMutexTrylock _ =>
    t.core = s.core ∨ ∃ m, r = .yielded ∧ Yields s (.mutex m) (.lockMutex m) t
  | .pthreadCondInit c _ => s.conditionVariables c = none ∧ t.core = (s.setCond c (some (s.condAt c))).core
  | .pthreadCondDestroy c => (r = .returned EINVAL ∧ t.core = s.core) ∨
    (r = .returned 0 ∧ (s.condAt c).waiting = [] ∧ (s.condAt c).waking = [] ∧ t.core = (s.setCond c none).core)
  | .pthreadCondWait c _ => (r = .returned EINVAL ∧ t.core = s.core) ∨ ∃ m, r = .yielded ∧
    Yields (s.setCond c (some ((s.condAt c).enqueue s.currentThread m))) (.condition c none) (.condWait c m) t
  | .pthreadCondTimedwait c _ _ => (r = .returned EINVAL ∧ t.core = s.core) ∨ ∃ m d, r = .yielded ∧
    Yields (s.setCond c (some ((s.condAt c).enqueue s.currentThread m))) (.condition c (some d)) (.condTimedwait c m) t
  | .pthreadCondSignal c => (r = .returned EINVAL ∧ t.core = s.core) ∨
    (r = .returned 0 ∧ t.core = (s.setCond c (some (s.condAt c).signal)).core)
  | .pthreadCondBroadcast c => (r = .returned EINVAL ∧ t.core = s.core) ∨
    (r = .returned 0 ∧ t.core = (s.setCond c (some (s.condAt c).broadcast)).core)
  | .semInit sem value => r = .returned 0 ∧ t = s.semInit sem value
  | .semDestroy sem => t = (s.semDestroy sem).2
  | .semPost sem => ∃ o, s.openSemaphores sem = some o ∧ r = .returned 0 ∧
    t = s.setSem sem (some { o with value := addI32 o.value 1 })
  | .semWait sem => ∃ o, s.openSemaphores sem = some o ∧
    ((0 < o.value ∧ r = .returned 0 ∧ t = s.setSem sem (some { o with value := o.value - 1 })) ∨
      (o.value ≤ 0 ∧ r = .yielded ∧
        Yields (s.setSem sem (some { o with waiting := o.waiting.insert s.currentThread })) (.semaphore sem) (.returning 0) t))
  | .semTrywait sem => ∃ o, s.openSemaphores sem = some o ∧
    ((0 < o.value ∧ r = .returned 0 ∧ t = s.setSem sem (some { o with value := o.value - 1 })) ∨
      (o.value ≤ 0 ∧ r = .returned (-1) ∧ t = s))
  | .flockfile file => ∃ lock, s.fileHostObj file = .ok lock ∧
    (((∃ i, lock.owningThread = some i ∧ i ≠ s.currentThread) ∧ r = .yielded ∧
        Yields (s.setFile file lock) (.fileObjectLock file) (.returning 0) t) ∨
      ((lock.owningThread = none ∨ lock.owningThread = some s.currentThread) ∧ r = .returned 0 ∧
        t = s.setFile file ⟨lock.lockCount + 1, some s.currentThread⟩))
  | .ftrylockfile file => ∃ lock, s.fileHostObj file = .ok lock ∧
    (((∃ i, lock.owningThread = some i ∧ i ≠ s.currentThread) ∧ r = .returned EBUSY ∧ t = s.setFile file lock) ∨
      ((lock.owningThread = none ∨ lock.owningThread = some s.currentThread) ∧ r = .returned 0 ∧
        t = s.setFile file ⟨lock.lockCount + 1, some s.currentThread⟩))
  | .funlockfile file => ∃ lock, s.fileHostObj file = .ok lock ∧ lock.owningThread = some s.currentThread ∧
    0 < lock.lockCount ∧ r = .returned 0 ∧
      t = s.setFile file ⟨lock.lockCount - 1, if lock.lockCount - 1 = 0 then none else lock.owningThread⟩
  | .newThread => t = s.newThread.2
  | .exitThread v => ∃ th, s.threads[s.currentThread]? = some th ∧
    t = { s.setThread s.currentThread { th with active := false, returnValue := some v } with executing := false }
  | .join joinee ptr => Yields s (.joining joinee ptr) (.returning 0) t
  | .suspendThread i => ∃ th, s.threads[i]? = some th ∧ t = s.setThread i { th with blockedBy := th.blockedBy.suspend }
  | .resumeThread i => ∃ th count previous, s.threads[i]? = some th ∧ th.blockedBy = .suspended (count + 1) previous ∧
    t = s.setThread i { th with blockedBy := if count = 0 then previous else .suspended count previous }
  | .sleep now duration => Yields s (.sleeping (now + duration)) (.returning 0) t
  | .interrupt => Yields s .notBlocked .guest t
  | .schedule clocks => (r = .slept ∧ t = s) ∨ ∃ clock i th v s₁, clock ∈ s.readings clocks ∧
    s.firstReady clock = some i ∧ s.threads[i]? = some th ∧ th.active = true ∧ r = .resumed th.hostContext v ∧
    Woken s i th.blockedBy s₁ ∧ t.core = (s₁.executes i th).core

def Owns (thread mutexId : Nat) : Prop := ∃ x n, s.mutexState.mutexes mutexId = some x ∧ x.locked = some (thread, n)

def mutexIdAt (mutex : Nat) : Nat := readLe s.mem mutex 12 / 2 ^ 32

/-- The id that the guest structure has once it is registered: a mutex that was initialised statically gets the next. -/
def registeredId (mutex : Nat) : Nat :=
  if readLe s.mem mutex 4 = magicMutexStatic then s.mutexState.mutexCount else s.mutexIdAt mutex

def events (c : Call) (r : Result) (t : Environment) : List Event :=
  match c, r with
  | .destroyMutex m, .returned v => if v = 0 then [.destroyed m] else []
  | .pthreadMutexDestroy mutex, .returned v => if v = 0 then [.destroyed (s.registeredId mutex)] else []
  | .lockMutex m, .returned v => if v = 0 then [.acquired s.currentThread m] else []
  | .unlockMutex m, .returned v => if v = 0 then [.released s.currentThread m] else []
  | .pthreadMutexLock mutex, .returned v => if v = 0 then [.acquired s.currentThread (t.mutexIdAt mutex)] else []
  | .pthreadMutexTrylock mutex, .returned v => if v = 0 then [.acquired s.currentThread (t.mutexIdAt mutex)] else []
  | .pthreadMutexUnlock mutex, .returned v => if v = 0 then [.released s.currentThread (t.mutexIdAt mutex)] else []
  | .pthreadCondWait _ mutex, .yielded => [.released s.currentThread (t.mutexIdAt mutex)]
  | .pthreadCondTimedwait _ mutex _, .yielded => [.released s.currentThread (t.mutexIdAt mutex)]
  | .schedule _, .resumed (.lockMutex m) _ => [.acquired t.currentThread m]
  | .schedule _, .resumed (.condWait _ m) _ => [.regained t.currentThread m]
  | .schedule _, .resumed (.condTimedwait _ m) _ => [.regained t.currentThread m]
  | _, _ => []

section
variable {s t : Environment} {mutex cond : Nat}
variable {s₁ : Environment} {x : Mutex} {i : Nat} {p : Control Int × Environment} {o : CondHostObject}
variable {lock : FileLock} {c : Call}

section
variable (h : t.core = s.core)
include h

theorem threads_of_core : t.threads = s.threads := (congrArg threads h :)

theorem current_of_core : t.currentThread = s.currentThread := (congrArg currentThread h :)

theorem executing_of_core : t.executing = s.executing := (congrArg executing h :)

theorem conds_of_core : t.conditionVariables = s.conditionVariables := (congrArg conditionVariables h :)

theorem sems_of_core : t.openSemaphores = s.openSemaphores := (congrArg openSemaphores h :)

theorem files_of_core : t.fileStreams = s.fileStreams := (congrArg fileStreams h :)

end

theorem conds_setCond (c c' : Nat) (o : Option CondHostObject) :
    (s.setCond c o).conditionVariables c' = if c' = c then o else s.conditionVariables c' := by
  simp [setCond, update_apply]

/-- Nothing but mutexes and memory was changed before the thread yielded. -/
theorem Yields.of_core {b} {rest} (hcr : s₁.core = s.core)
    (h : Yields s₁ b rest t) : Yields s b rest t := by
  obtain ⟨th, hth, hru, ht⟩ := h
  rw [threads_of_core hcr, current_of_core hcr] at hth
  refine ⟨th, hth, hru, ht.trans ?_⟩
  change (s₁.core.yielded th b rest).core = (s.core.yielded th b rest).core
  rw [hcr]

theorem get_eq_ok {ms : MutexState} : ms.get m = .ok x ↔ ms.mutexes m = some x := by
  unfold MutexState.get
  cases ms.mutexes m <;> simp

theorem mutexes_setMutex (m : Nat) (x : Mutex) : (s.setMutex m x).mutexState.mutexes m = some x := by
  simp [setMutex, MutexState.insert]

theorem mutexes_setMutex_apply (k : Nat) :
    (s.setMutex m x).mutexState.mutexes k = if k = m then some x else s.mutexState.mutexes k := by
  simp [setMutex, MutexState.insert, update_apply]

theorem Step.acquired (h : Step s [.acquired i m] t) : t.Owns i m ∧ t.mem = s.mem := by
  cases h with
  | lock | lockAgain | wakeMutex => exact ⟨⟨_, _, mutexes_setMutex m _, rfl⟩, rfl⟩

theorem Step.regained (h : Step s [.regained i m] t) : t.Owns i m := by
  cases h with
  | wakeSignalled | wakeTimedOut => exact ⟨_, _, mutexes_setMutex m _, rfl⟩

theorem thread_ends (s : Environment) (i : Nat) :
    Ends (s.thread i) (fun th => s.threads[i]? = some th) fun e => e.ofWait = false := by
  unfold thread
  cases hi : s.threads[i]? with
  | none => rfl
  | some th => rfl

theorem thread_ok {th} (h : s.thread i = .ok th) : s.threads[i]? = some th := (thread_ends s i).ok h

section
variable (s : Environment)

theorem yieldThread_spec (b : ThreadBlock) (rest : HostContext) : Ensures (s.yieldThread b rest) fun t =>
    ∃ th, s.threads[s.currentThread]? = some th ∧ th.blockedBy = .notBlocked ∧ t = s.yielded th b rest :=
  .next fun th hth => .ite (fun _ => trivial) fun hru => ⟨th, thread_ok hth, of_not_not hru, rfl⟩

theorem memWrite_spec (ptr size value : Nat) : Ensures (s.memWrite ptr size value) fun t => ∃ mem, t = { s with mem } :=
  .ite (fun _ => ⟨_, rfl⟩) fun _ => trivial

inductive Locked (s : Environment) (m : Nat) : Control (Except Int Nat) × Environment → Prop where
  | locked {n : Nat} {t : Environment} (step : Step s [.acquired s.currentThread m] t) (core : t.core = s.core) :
      Locked s m (.returned (.ok n), t)
  | refused : Locked s m (.returned (.error EDEADLK), s)
  | blocked {t : Environment} (step : Step s [] t) (yields : Yields s (.mutex m) (.lockMutex m) t) :
      Locked s m (.yielded, t)

theorem lockMutex_spec (m : Nat) : Ensures (s.lockMutex m) (Locked s m) := by
  refine .next ?_
  rintro ⟨type, w, locked⟩ hx
  rw [get_eq_ok] at hx
  rcases locked with _ | ⟨u, n⟩
  · exact .locked (.lock hx rfl) rfl
  · refine .ite (fun hu => ?_) fun hu => ?_
    · subst hu
      cases type with
      | normal => exact trivial
      | errorcheck => exact .refused
      | recursive => exact .ite (fun _ => .locked (.lockAgain hx rfl rfl rfl) rfl) fun _ => trivial
    · refine (yieldThread_spec _ _ _).bind ?_
      rintro _ ⟨th, hth, hru, rfl⟩
      exact .blocked (.lockBlock hx rfl hu hth hru) ⟨th, hth, hru, rfl⟩

inductive Unlocked (s : Environment) (m : Nat) : Except Int Nat × Environment → Prop where
  | unlocked {n : Nat} {t : Environment} (step : Step s [.released s.currentThread m] t) (mem : t.mem = s.mem)
      (core : t.core = s.core) (present : ∃ x, t.mutexState.mutexes m = some x) : Unlocked s m (.ok n, t)
  | refused : Unlocked s m (.error EPERM, s)

theorem unlockMutex_spec (m : Nat) : Ensures (s.unlockMutex m) (Unlocked s m) := by
  refine .next ?_
  rintro ⟨type, w, locked⟩ hx
  rw [get_eq_ok] at hx
  rcases locked with _ | ⟨u, n⟩
  · cases type with
    | normal => exact trivial
    | errorcheck | recursive => exact .refused
  · refine .ite (fun _ => .refused) fun hown => ?_
    have hown : u = s.currentThread ∨ type = .normal := by
      by_cases hu : u = s.currentThread
      · exact .inl hu
      · exact .inr (by_contra fun hty => hown ⟨hu, hty⟩)
    refine .ite (fun honc => .unlocked (.unlock hx rfl honc hown) rfl rfl ⟨_, mutexes_setMutex m _⟩) fun _ => ?_
    refine .ite (fun _ => trivial) fun hty => ?_
    obtain rfl : type = .recursive := of_not_not hty
    obtain rfl : u = s.currentThread := hown.resolve_right nofun
    split
    · rename_i hpos
      refine .unlocked (.unlockOnce hx rfl rfl ?_) rfl rfl ⟨_, mutexes_setMutex m _⟩
      change n.get - 1 + 1 = n.get
      omega
    · exact trivial

theorem initMutex_spec (type : MutexType) : Ensures (s.mutexState.initMutex type) fun p =>
    p.1 = s.mutexState.mutexCount ∧ p.1 + 1 < 2 ^ 64 ∧ Step s [] { s with mutexState := p.2 } :=
  .ite (fun hcn => ⟨rfl, hcn, .initMutex type⟩) fun _ => trivial

/-! ### The guest interface of mutexes -/

structure Prepared (s t : Environment) : Prop where
  steps : Steps s [] t
  current : t.currentThread = s.currentThread
  threads : t.threads = s.threads
  executing : t.executing = s.executing

theorem Prepared.refl : Prepared s s := ⟨.refl, rfl, rfl, rfl⟩

theorem pthreadMutexInit_spec (mutex attr : Nat) :
    Ensures (s.pthreadMutexInit mutex attr) fun p => Steps s [] p.2 ∧ p.2.core = s.core := by
  refine .next fun type _ => ?_
  cases type with
  | error e => exact ⟨.refl, rfl⟩
  | ok type =>
    refine (initMutex_spec s type).bind fun p hp => (memWrite_spec _ _ _ _).bind ?_
    rintro _ ⟨mem, rfl⟩
    exact ⟨(Steps.one hp.2.2).step (.memory mem), rfl⟩

theorem checkOrRegisterMutex_spec (mutex : Nat) : Ensures (s.checkOrRegisterMutex mutex) fun p =>
    (Steps s [] p.2 ∧ p.2.core = s.core) ∧ ∀ e, p.1 = .error e → e ≠ 0 := by
  refine .next fun magic _ => ?_
  refine .ite (fun _ => ?_) fun _ => .ite (fun _ => ⟨⟨.refl, rfl⟩, nofun⟩) fun _ => ⟨⟨.refl, rfl⟩, ?_⟩
  · exact (pthreadMutexInit_spec s mutex 0).bind fun p hp => ⟨hp, nofun⟩
  · rintro _ ⟨⟩
    decide

theorem readLe_memWrite (ptr size value : Nat) : Ensures (s.memWrite ptr size value) fun t =>
    ∀ n k, k + n ≤ size → readLe t.mem (ptr + k) n = value / 256 ^ k % 256 ^ n :=
  .ite (fun _ => readLe_written s.mem ptr size value) fun _ => trivial

theorem memRead_spec (ptr size : Nat) : Ensures (s.memRead ptr size) fun v => readLe s.mem ptr size = v :=
  .ite (fun _ => rfl) fun _ => trivial

theorem readMutexId_spec (mutex : Nat) : Ensures (s.readMutexId mutex) fun m => s.mutexIdAt mutex = m := by
  refine (memRead_spec s mutex 12).bind ?_
  rintro _ rfl
  rfl

theorem pthreadMutexInit_id (mutex : Nat) :
    Ensures (s.pthreadMutexInit mutex 0) fun p => p.2.mutexIdAt mutex = s.mutexState.mutexCount := by
  refine (initMutex_spec s pthreadMutexDefault).bind fun p hp => (readLe_memWrite _ _ _ _).bind fun t hrd => ?_
  have hrd := hrd 12 0 (Nat.le_refl 12)
  rw [Nat.add_zero, Nat.pow_zero, Nat.div_one] at hrd
  change readLe t.mem mutex 12 / 2 ^ 32 = _
  rw [hrd, ← hp.1]
  unfold magicMutex
  omega

theorem checkOrRegisterMutex_id (mutex : Nat) : Ensures (s.checkOrRegisterMutex mutex) fun p =>
    p.1 = .ok () → p.2.mutexIdAt mutex = s.registeredId mutex := by
  refine (memRead_spec s mutex 4).bind ?_
  rintro _ rfl
  unfold registeredId
  refine .ite (fun hstt => ?_) fun hstt => .ite (fun _ _ => ?_) fun _ => nofun
  · rw [if_pos hstt]
    exact (pthreadMutexInit_id s mutex).bind fun p hp _ => hp
  · rw [if_neg hstt]

end

inductive PthreadLocked (s : Environment) (mutex : Nat) : Control Int × Environment → Prop where
  | locked {t : Environment} (steps : Steps s [.acquired s.currentThread (t.mutexIdAt mutex)] t)
      (owns : t.Owns s.currentThread (t.mutexIdAt mutex)) (core : t.core = s.core) : PthreadLocked s mutex (.returned 0, t)
  | refused {e : Int} {t : Environment} (steps : Steps s [] t) (error : e ≠ 0) (core : t.core = s.core) :
      PthreadLocked s mutex (.returned e, t)
  | blocked {t : Environment} {m : Nat} (steps : Steps s [] t) (yields : Yields s (.mutex m) (.lockMutex m) t) :
      PthreadLocked s mutex (.yielded, t)

/-- After a registration nothing else is different for the caller. -/
theorem PthreadLocked.prepared
    (hp : Steps s [] s₁ ∧ s₁.core = s.core) (h : PthreadLocked s₁ mutex p) : PthreadLocked s mutex p := by
  cases h with
  | locked steps owns core =>
    rw [current_of_core hp.2] at steps owns
    exact .locked (hp.1.trans steps) owns (core.trans hp.2)
  | refused steps error core => exact .refused (hp.1.trans steps) error (core.trans hp.2)
  | blocked steps yields => exact .blocked (hp.1.trans steps) (yields.of_core hp.2)

section
variable (s : Environment)

theorem pthreadMutexLock_spec (mutex : Nat) : Ensures (s.pthreadMutexLock mutex) (PthreadLocked s mutex) := by
  refine (checkOrRegisterMutex_spec s mutex).bind ?_
  rintro ⟨r, s₁⟩ ⟨hp, herr⟩
  cases r with
  | error e => exact .refused hp.1 (herr e rfl) hp.2
  | ok =>
    refine (readMutexId_spec s₁ mutex).bind fun m hm => (lockMutex_spec s₁ m).bind fun p hlo => ?_
    cases hlo with
    | locked step core =>
      obtain ⟨hon, hmem⟩ := step.acquired
      rw [← hm, mutexIdAt, ← hmem] at step hon
      exact .prepared hp (.locked (.one step) hon core)
    | refused => exact .refused hp.1 (by decide) hp.2
    | blocked step yields => exact .prepared hp (.blocked (.one step) yields)

theorem pthreadMutexTrylock_spec (mutex : Nat) : Ensures (s.pthreadMutexTrylock mutex) (PthreadLocked s mutex) := by
  refine (checkOrRegisterMutex_spec s mutex).bind ?_
  rintro ⟨r, s₁⟩ ⟨hp, herr⟩
  cases r with
  | error e => exact .refused hp.1 (herr e rfl) hp.2
  | ok =>
    refine Ensures.next fun m _ => .ite (fun _ => .refused hp.1 (by decide) hp.2) fun _ => ?_
    exact (pthreadMutexLock_spec s₁ mutex).imp fun p hlo => hlo.prepared hp

inductive PthreadUnlocked (s : Environment) (mutex : Nat) : Int × Environment → Prop where
  | unlocked {t : Environment} (steps : Steps s [.released s.currentThread (t.mutexIdAt mutex)] t) (core : t.core = s.core)
      (present : ∃ x, t.mutexState.mutexes (t.mutexIdAt mutex) = some x) : PthreadUnlocked s mutex (0, t)
  | refused {e : Int} {t : Environment} (steps : Steps s [] t) (error : e ≠ 0) (core : t.core = s.core) :
      PthreadUnlocked s mutex (e, t)

theorem pthreadMutexUnlock_spec (mutex : Nat) : Ensures (s.pthreadMutexUnlock mutex) (PthreadUnlocked s mutex) := by
  refine (checkOrRegisterMutex_spec s mutex).bind ?_
  rintro ⟨r, s₁⟩ ⟨hp, herr⟩
  cases r with
  | error e => exact .refused hp.1 (herr e rfl) hp.2
  | ok =>
    refine (readMutexId_spec s₁ mutex).bind fun m hm => (unlockMutex_spec s₁ m).bind fun p huc => ?_
    cases huc with
    | unlocked step hmem core present =>
      rw [← hm, mutexIdAt, ← hmem] at step present
      rw [current_of_core hp.2] at step
      exact .unlocked (hp.1.trans (.one step)) (core.trans hp.2) present
    | refused => exact .refused hp.1 (by decide) hp.2

inductive Destroyed (s : Environment) (m : Nat) : Except Int Unit × MutexState → Prop where
  | destroyed {ms : MutexState} (step : Step s [.destroyed m] { s with mutexState := ms }) : Destroyed s m (.ok (), ms)
  | refused : Destroyed s m (.error EBUSY, s.mutexState)

theorem destroyMutex_spec (m : Nat) : Ensures (s.mutexState.destroyMutex m) (Destroyed s m) := by
  refine .next fun x hx => .ite (fun _ => .refused) fun hfr => .ite (fun _ => .refused) fun hcn => ?_
  exact .destroyed (.destroyMutex (get_eq_ok.mp hx) (by simpa using hfr) (of_not_not hcn))

inductive PthreadDestroyed (s : Environment) (mutex : Nat) : Int × Environment → Prop where
  | destroyed {s₁ t : Environment} (steps : Steps s [] s₁) (same : s₁.core = s.core)
      (step : Step s₁ [.destroyed (s.registeredId mutex)] t) (core : t.core = s.core) : PthreadDestroyed s mutex (0, t)
  | refused {e : Int} {t : Environment} (steps : Steps s [] t) (error : e ≠ 0) (core : t.core = s.core) :
      PthreadDestroyed s mutex (e, t)

theorem pthreadMutexDestroy_spec (mutex : Nat) : Ensures (s.pthreadMutexDestroy mutex) (PthreadDestroyed s mutex) := by
  refine .next ?_
  rintro ⟨r, s₁⟩ hcc
  obtain ⟨hp, herr⟩ := (checkOrRegisterMutex_spec s mutex).ok hcc
  cases r with
  | error e => exact .refused hp.1 (herr e rfl) hp.2
  | ok =>
    have hid := (checkOrRegisterMutex_id s mutex).ok hcc rfl
    refine (readMutexId_spec s₁ mutex).bind fun m hm => (memWrite_spec _ _ _ _).bind ?_
    rintro _ ⟨mem, rfl⟩
    refine (destroyMutex_spec { s₁ with mem } m).bind fun p hds => ?_
    cases hds with
    | destroyed step =>
      rw [← hm, hid] at step
      exact .destroyed (hp.1.step (.memory mem)) hp.2 step hp.2
    | refused => exact .refused (hp.1.step (.memory mem)) (by decide) hp.2

theorem hostCond_ends (cond : Nat) :
    Ends (s.hostCond cond) (fun o => s.conditionVariables cond = some o) fun e => e.ofWait = false := by
  unfold hostCond
  cases hc : s.conditionVariables cond with
  | none => rfl
  | some o => rfl

end

theorem hostCond_ok (h : s.hostCond cond = .ok o) : s.conditionVariables cond = some o := (hostCond_ends s cond).ok h

theorem setCond_condAt (h : s.conditionVariables cond = some o) : s.condAt cond = o ∧ s.setCond cond (some o) = s := by
  refine ⟨by simp [condAt, h], ?_⟩
  unfold setCond
  rw [← h, update_eq_self]

theorem pthreadCondInit_spec (s : Environment) (cond attr : Nat) : Ensures (s.pthreadCondInit cond attr) fun p =>
    Steps s [] p.2 ∧ s.conditionVariables cond = none ∧ p.2.core = (s.setCond cond (some (s.condAt cond))).core := by
  refine .ite (fun _ => trivial) fun _ => (memWrite_spec _ _ _ _).bind ?_
  rintro _ ⟨mem, rfl⟩
  refine .ite (fun _ => trivial) fun hab => ?_
  have hab : s.conditionVariables cond = none := by simpa using hab
  have hfh : s.condAt cond = ⟨[], [], none, []⟩ := by simp [condAt, hab]
  rw [hfh]
  exact ⟨(Steps.one (.memory mem)).step (.condInit hab), hab, rfl⟩

/-- What the registration of a condition variable comes to: it is registered when it is looked up. -/
inductive Registered (s : Environment) (cond : Nat) : Except Int Unit × Environment → Prop where
  | invalid : Registered s cond (.error EINVAL, s)
  | registered {t : Environment} (steps : Steps s [] t) (current : t.currentThread = s.currentThread)
      (object : ∀ o, t.conditionVariables cond = some o → o = s.condAt cond ∧ t.core = (s.setCond cond (some o)).core) :
      Registered s cond (.ok (), t)

theorem checkOrRegisterCond_spec (s : Environment) (cond : Nat) :
    Ensures (s.checkOrRegisterCond cond) (Registered s cond) := by
  refine .next fun magic _ => .ite (fun _ => ?_) fun _ => .ite (fun _ => ?_) fun _ => .invalid
  · refine (pthreadCondInit_spec s cond 0).bind ?_
    rintro ⟨v, t⟩ ⟨hse, -, hcr⟩
    refine .registered hse (current_of_core (s := s.setCond cond _) hcr) fun o ho => ?_
    rw [conds_of_core hcr, conds_setCond, if_pos rfl] at ho
    cases ho
    exact ⟨rfl, hcr⟩
  · refine .registered .refl rfl fun o ho => ?_
    obtain ⟨hat, hset⟩ := setCond_condAt ho
    exact ⟨hat.symm, by rw [hset]⟩

/-- Whatever has become of the mutexes and the memory, one host object is replaced. -/
theorem setCond_core (hcr : s₁.core = (s.setCond cond (some o)).core)
    (o' : Option CondHostObject) : (s₁.setCond cond o').core = (s.setCond cond o').core := by
  change s₁.core.setCond cond o' = s.core.setCond cond o'
  rw [hcr]
  simp [setCond, core, update_idem]

inductive CondBlocked (s : Environment) (cond mutex : Nat) (deadline : Option Nat) : Control Int × Environment → Prop where
  | blocked {t : Environment} {m : Nat} (steps : Steps s [.released s.currentThread (t.mutexIdAt mutex)] t)
      (yields : Yields (s.setCond cond (some ((s.condAt cond).enqueue s.currentThread m))) (.condition cond deadline)
        (.waiting cond m deadline) t) : CondBlocked s cond mutex deadline (.yielded, t)
  | refused : CondBlocked s cond mutex deadline (.returned EINVAL, s)

section
variable (s : Environment)

theorem condBlock_spec (cond mutex : Nat) {deadline} {rest}
    (hrs : ∀ m, rest m = .waiting cond m deadline) :
    Ensures (s.condBlock cond mutex deadline rest) (CondBlocked s cond mutex deadline) := by
  refine (checkOrRegisterCond_spec s cond).bind fun p hcc => ?_
  cases hcc with
  | invalid => exact .refused
  | @registered s₁ hse hcu hob =>
    refine (pthreadMutexUnlock_spec s₁ mutex).bind fun p huc => ?_
    cases huc with
    | refused _ error => exact .ite (fun _ => trivial) fun hv => absurd (of_not_not hv) error
    | @unlocked s₂ hunl hcr hpe =>
      refine .ite (fun _ => trivial) fun _ => (readMutexId_spec s₂ mutex).bind fun m hm => ?_
      refine Ensures.next fun o ho => .ite (fun hmx => ?_) fun _ => trivial
      have ho := hostCond_ok ho
      refine (yieldThread_spec _ _ _).bind ?_
      rintro _ ⟨th, hth, hru, rfl⟩
      rw [hrs]
      rw [hm] at hpe
      have hst := (hse.trans hunl).step (.condBlock (d := deadline) ho hmx hpe hth hru)
      rw [hcu, List.append_nil, List.nil_append] at hst
      rw [conds_of_core hcr] at ho
      obtain ⟨rfl, hcr₁⟩ := hob o ho
      refine .blocked (m := m) hst ?_
      rw [← hcu, ← current_of_core hcr]
      exact .of_core (setCond_core (hcr.trans hcr₁) _) ⟨th, hth, hru, rfl⟩

theorem pthreadCondTimedwait_spec (cond mutex absTime : Nat) :
    Ensures (s.pthreadCondTimedwait cond mutex absTime) fun p => ∃ d, CondBlocked s cond mutex (some d) p := by
  refine .next fun tvSec _ => .next fun tvNsec _ => .ite (fun _ => ?_) fun _ => trivial
  exact (condBlock_spec s cond mutex fun _ => rfl).imp fun p hp => ⟨_, hp⟩

def OnCond (s : Environment) (cond : Nat) (o : Option CondHostObject) (p : Int × Environment) : Prop :=
  Steps s [] p.2 ∧ ((p.1 = EINVAL ∧ p.2.core = s.core) ∨ (p.1 = 0 ∧ p.2.core = (s.setCond cond o).core))

theorem pthreadCondSignal_spec (cond : Nat) :
    Ensures (s.pthreadCondSignal cond) (OnCond s cond (some (s.condAt cond).signal)) := by
  refine (checkOrRegisterCond_spec s cond).bind fun p hcc => ?_
  cases hcc with
  | invalid => exact ⟨.refl, .inl ⟨rfl, rfl⟩⟩
  | registered hse _ hob =>
    refine Ensures.next fun o ho => ?_
    have ho := hostCond_ok ho
    obtain ⟨rfl, hcr⟩ := hob o ho
    unfold CondHostObject.signal
    cases hwn : (s.condAt cond).waiting with
    | nil => exact ⟨hse, .inr ⟨rfl, hcr⟩⟩
    | cons i waiting => exact ⟨hse.step (.signal ho hwn), .inr ⟨rfl, setCond_core hcr _⟩⟩

theorem pthreadCondBroadcast_spec (cond : Nat) :
    Ensures (s.pthreadCondBroadcast cond) (OnCond s cond (some (s.condAt cond).broadcast)) := by
  refine (checkOrRegisterCond_spec s cond).bind fun p hcc => ?_
  cases hcc with
  | invalid => exact ⟨.refl, .inl ⟨rfl, rfl⟩⟩
  | registered hse _ hob =>
    refine Ensures.next fun o ho => ?_
    have ho := hostCond_ok ho
    obtain ⟨rfl, hcr⟩ := hob o ho
    exact ⟨hse.step (.broadcast ho), .inr ⟨rfl, setCond_core hcr _⟩⟩

theorem pthreadCondDestroy_spec (cond : Nat) : Ensures (s.pthreadCondDestroy cond) fun p =>
    OnCond s cond none p ∧ (p.1 = 0 → (s.condAt cond).waiting = [] ∧ (s.condAt cond).waking = []) := by
  refine (checkOrRegisterCond_spec s cond).bind fun p hcc => ?_
  cases hcc with
  | invalid => exact ⟨⟨.refl, .inl ⟨rfl, rfl⟩⟩, nofun⟩
  | registered hse _ hob =>
    refine Ensures.next fun o ho => .ite (fun hem => ?_) fun _ => trivial
    have ho := hostCond_ok ho
    obtain ⟨rfl, hcr⟩ := hob o ho
    exact ⟨⟨hse.step (.condDestroy ho hem.1 hem.2), .inr ⟨rfl, setCond_core hcr _⟩⟩, fun _ => hem⟩

theorem hostSem_ends (sem : Nat) :
    Ends (s.hostSem sem) (fun o => s.openSemaphores sem = some o) fun e => e.ofWait = false := by
  unfold hostSem
  cases hsem : s.openSemaphores sem with
  | none => rfl
  | some o => rfl

end

theorem hostSem_ok {sem : Nat} {o} (h : s.hostSem sem = .ok o) : s.openSemaphores sem = some o :=
  (hostSem_ends s sem).ok h

theorem yieldThread_plain (s : Environment) (b : ThreadBlock) (v : Int) (hpa : b.Plain) (hb : b ≠ .notBlocked) :
    Ensures (s.yieldThread b (.returning v)) fun t => Steps s [] t ∧ Yields s b (.returning v) t := by
  refine (yieldThread_spec s b _).imp ?_
  rintro _ ⟨th, hth, hru, rfl⟩
  exact ⟨.one (.block hth hru hpa (.inr ⟨v, hb, rfl⟩)), th, hth, hru, rfl⟩

inductive Decremented (s : Environment) (sem : Nat) (wait : Bool) (o : SemaphoreHostObject) :
    Control Bool × Environment → Prop where
  | taken (positive : 0 < o.value) :
      Decremented s sem wait o (.returned true, s.setSem sem (some { o with value := o.value - 1 }))
  | refused (free : o.value ≤ 0) (nowait : wait = false) : Decremented s sem wait o (.returned false, s)
  | blocked {t : Environment} (free : o.value ≤ 0) (waits : wait = true) (steps : Steps s [] t)
      (yields : Yields (s.setSem sem (some { o with waiting := o.waiting.insert s.currentThread })) (.semaphore sem)
        (.returning 0) t) : Decremented s sem wait o (.yielded, t)

theorem semDecrement_spec (s : Environment) (sem : Nat) (wait : Bool) : Ensures (s.semDecrement sem wait) fun p =>
    ∃ o, s.openSemaphores sem = some o ∧ Decremented s sem wait o p := by
  refine .next fun o ho => .ite (fun hpos => ⟨o, hostSem_ok ho, .taken hpos⟩) fun hpos => ?_
  have hle : o.value ≤ 0 := Int.not_lt.mp hpos
  cases wait with
  | false => exact ⟨o, hostSem_ok ho, .refused hle rfl⟩
  | true =>
    refine (yieldThread_plain _ (.semaphore sem) 0 trivial nofun).bind fun t ht => ?_
    exact ⟨o, hostSem_ok ho, .blocked hle rfl ((Steps.one (.semaphores _)).trans ht.1) ht.2⟩

theorem owned_by_other :
    (lock.owningThread.isSome ∧ lock.owningThread ≠ some i) ↔ ∃ j, lock.owningThread = some j ∧ j ≠ i := by
  cases lock.owningThread <;> simp

theorem not_owned_by_other (h : ¬(lock.owningThread.isSome ∧ lock.owningThread ≠ some i)) :
    lock.owningThread = none ∨ lock.owningThread = some i := by
  cases howe : lock.owningThread with
  | none => exact .inl rfl
  | some j =>
    rw [howe] at h
    exact .inr (by_contra fun hj => h ⟨rfl, hj⟩)

inductive FileLocked (s : Environment) (file : Nat) (lock : FileLock) : Control Unit × Environment → Prop where
  | locked (own : lock.owningThread = none ∨ lock.owningThread = some s.currentThread) :
      FileLocked s file lock (.returned (), s.setFile file ⟨lock.lockCount + 1, some s.currentThread⟩)
  | blocked {t : Environment} (other : ∃ i, lock.owningThread = some i ∧ i ≠ s.currentThread) (steps : Steps s [] t)
      (yields : Yields (s.setFile file lock) (.fileObjectLock file) (.returning 0) t) : FileLocked s file lock (.yielded, t)

theorem flockfile_spec (s : Environment) (file : Nat) : Ensures (s.flockfile file) fun p =>
    ∃ lock, s.fileHostObj file = .ok lock ∧ FileLocked s file lock p := by
  refine .next fun lock hlo => .ite (fun hoh => ?_) fun hoh => .ite (fun _ => ?_) fun _ => trivial
  · refine (yieldThread_plain _ (.fileObjectLock file) 0 trivial nofun).bind fun t ht => ?_
    exact ⟨lock, hlo, .blocked (owned_by_other.mp hoh) ((Steps.one (.files _)).trans ht.1) ht.2⟩
  · exact ⟨lock, hlo, .locked (not_owned_by_other hoh)⟩

/-! ### All calls of a thread -/

structure Done (s : Environment) (c : Call) (p : Result × Environment) : Prop where
  steps : Steps s (events s c p.1 p.2) p.2
  effect : Effect s p.1 p.2 c

theorem PthreadLocked.done (h : PthreadLocked s mutex p)
    (hc : c = .pthreadMutexLock mutex ∨ c = .pthreadMutexTrylock mutex) : Done s c (.ofControl p.1, p.2) := by
  cases h with
  | locked steps _ core => rcases hc with rfl | rfl <;> exact ⟨steps, .inl core⟩
  | refused steps error core =>
    rcases hc with rfl | rfl <;> exact ⟨by simpa [Result.ofControl, events, error] using steps, .inl core⟩
  | blocked steps yields => rcases hc with rfl | rfl <;> exact ⟨steps, .inr ⟨_, rfl, yields⟩⟩

theorem OnCond.done {o} {p} (h : OnCond s cond o p)
    (hevt : events s c (.returned p.1) p.2 = [])
    (hef : (.returned p.1 = Result.returned EINVAL ∧ p.2.core = s.core) ∨
      (.returned p.1 = Result.returned 0 ∧ p.2.core = (s.setCond cond o).core) → Effect s (.returned p.1) p.2 c) :
    Done s c (.returned p.1, p.2) :=
  ⟨hevt ▸ h.1, hef (h.2.imp (.imp_left (congrArg _)) (.imp_left (congrArg _)))⟩

/-- A call of the executing thread is a sequence of steps, and it does what the table says. -/
theorem call_spec (s : Environment) (c : Call) (hsch : ∀ clocks, c ≠ .schedule clocks) : Ensures (s.call c) (Done s c) := by
  cases c with
  | initMutex type => exact (initMutex_spec s type).bind fun p hp => ⟨.one hp.2.2, rfl⟩
  | destroyMutex m =>
    refine (destroyMutex_spec s m).bind fun p hp => ?_
    cases hp with
    | destroyed step => exact ⟨.one step, rfl⟩
    | refused => exact ⟨.refl, rfl⟩
  | lockMutex m =>
    refine (lockMutex_spec s m).bind fun p hp => ?_
    cases hp with
    | locked step core => exact ⟨.one step, .inl core⟩
    | refused => exact ⟨.refl, .inl rfl⟩
    | blocked step yields => exact ⟨.one step, .inr ⟨m, rfl, yields⟩⟩
  | unlockMutex m =>
    refine (unlockMutex_spec s m).bind fun p hp => ?_
    cases hp with
    | unlocked step _ core => exact ⟨.one step, core⟩
    | refused => exact ⟨.refl, rfl⟩
  | pthreadMutexInit mutex attr => exact (pthreadMutexInit_spec s mutex attr).bind fun p hp => ⟨hp.1, hp.2⟩
  | pthreadMutexDestroy mutex =>
    refine (pthreadMutexDestroy_spec s mutex).bind fun p hp => ?_
    cases hp with
    | destroyed steps _ step core => exact ⟨steps.trans (.one step), core⟩
    | refused steps error core => exact ⟨by simpa [events, error] using steps, core⟩
  | pthreadMutexLock mutex => exact (pthreadMutexLock_spec s mutex).bind fun p hp => hp.done (.inl rfl)
  | pthreadMutexTrylock mutex => exact (pthreadMutexTrylock_spec s mutex).bind fun p hp => hp.done (.inr rfl)
  | pthreadMutexUnlock mutex =>
    refine (pthreadMutexUnlock_spec s mutex).bind fun p hp => ?_
    cases hp with
    | unlocked steps core => exact ⟨steps, core⟩
    | refused steps error core => exact ⟨by simpa [events, error] using steps, core⟩
  | pthreadCondInit cond attr => exact (pthreadCondInit_spec s cond attr).bind fun p hp => ⟨hp.1, hp.2⟩
  | pthreadCondDestroy cond =>
    refine (pthreadCondDestroy_spec s cond).bind fun p hp => hp.1.done rfl fun h => ?_
    rcases h with hrfs | ⟨hzr, hcr⟩
    · exact .inl hrfs
    · obtain ⟨hwn, hwk⟩ := hp.2 (Result.returned.inj hzr)
      exact .inr ⟨hzr, hwn, hwk, hcr⟩
  | pthreadCondWait cond mutex =>
    refine (condBlock_spec s cond mutex fun _ => rfl).bind fun p hp => ?_
    cases hp with
    | blocked steps yields => exact ⟨steps, .inr ⟨_, rfl, yields⟩⟩
    | refused => exact ⟨.refl, .inl ⟨rfl, rfl⟩⟩
  | pthreadCondTimedwait cond mutex absTime =>
    refine (pthreadCondTimedwait_spec s cond mutex absTime).bind ?_
    rintro p ⟨d, hp⟩
    cases hp with
    | blocked steps yields => exact ⟨steps, .inr ⟨_, d, rfl, yields⟩⟩
    | refused => exact ⟨.refl, .inl ⟨rfl, rfl⟩⟩
  | pthreadCondSignal cond => exact (pthreadCondSignal_spec s cond).bind fun p hp => hp.done rfl id
  | pthreadCondBroadcast cond => exact (pthreadCondBroadcast_spec s cond).bind fun p hp => hp.done rfl id
  | semInit sem value =>
    refine ⟨?_, rfl, rfl⟩
    unfold semInit
    split
    · exact .refl
    · exact .one (.semaphores _)
  | semDestroy sem =>
    refine ⟨?_, rfl⟩
    unfold semDestroy
    split
    · exact .one (.semaphores _)
    · exact .refl
  | semPost sem =>
    refine .next fun t ht => ?_
    obtain ⟨o, ho, ht⟩ := bind_eq_ok.mp ht
    cases ht
    exact ⟨.one (.semaphores _), o, hostSem_ok ho, rfl, rfl⟩
  | semWait sem =>
    refine (semDecrement_spec s sem true).bind ?_
    rintro p ⟨o, ho, hp⟩
    cases hp with
    | taken hpos => exact ⟨.one (.semaphores _), o, ho, .inl ⟨hpos, rfl, rfl⟩⟩
    | refused _ hau => cases hau
    | blocked hle _ steps yields => exact ⟨steps, o, ho, .inr ⟨hle, rfl, yields⟩⟩
  | semTrywait sem =>
    refine (semDecrement_spec s sem false).bind ?_
    rintro p ⟨o, ho, hp⟩
    cases hp with
    | taken hpos => exact ⟨.one (.semaphores _), o, ho, .inl ⟨hpos, rfl, rfl⟩⟩
    | refused hle => exact ⟨.refl, o, ho, .inr ⟨hle, rfl, rfl⟩⟩
    | blocked _ hau => cases hau
  | flockfile file =>
    refine (flockfile_spec s file).bind ?_
    rintro p ⟨lock, hlo, hp⟩
    cases hp with
    | locked hown => exact ⟨.one (.files _), lock, hlo, .inr ⟨hown, rfl, rfl⟩⟩
    | blocked hoh steps yields => exact ⟨steps, lock, hlo, .inl ⟨hoh, rfl, yields⟩⟩
  | ftrylockfile file =>
    refine .bind ?_ fun p hp => hp
    refine Ensures.next fun lock hlo => .ite (fun hoh => ?_) fun hoh => .ite (fun _ => ?_) fun _ => trivial
    · exact ⟨.one (.files _), lock, hlo, .inl ⟨owned_by_other.mp hoh, rfl, rfl⟩⟩
    · exact ⟨.one (.files _), lock, hlo, .inr ⟨not_owned_by_other hoh, rfl, rfl⟩⟩
  | funlockfile file =>
    refine .bind ?_ fun p hp => hp
    refine Ensures.next fun lock hlo => .ite (fun _ => trivial) fun howe => .ite (fun _ => trivial) fun hcn => ?_
    exact ⟨.one (.files _), lock, hlo, of_not_not howe, Nat.pos_of_ne_zero hcn, rfl, rfl⟩
  | newThread => exact ⟨.one .newThread, rfl⟩
  | exitThread v =>
    refine .bind ?_ fun p hp => hp
    exact Ensures.next fun th hth => ⟨.one (.exitThread (thread_ok hth)), th, thread_ok hth, rfl⟩
  | join joinee ptr => exact (yieldThread_plain s (.joining joinee ptr) 0 trivial nofun).bind fun t ht => ⟨ht.1, ht.2⟩
  | suspendThread i =>
    refine .bind ?_ fun p hp => hp
    refine Ensures.next fun th hth => ?_
    have hth := thread_ok hth
    cases hbl : th.blockedBy <;> exact ⟨.one (.wrap hth (by rw [hbl]; rfl)), th, hth, by rw [hbl]; rfl⟩
  | resumeThread i =>
    refine .bind ?_ fun p hp => hp
    refine Ensures.next fun th hth => ?_
    have hth := thread_ok hth
    split
    · rename_i count previous hbl
      cases count with
      | zero => exact trivial
      | succ n =>
        refine .ite (fun hmr => ?_) fun hlss => .ite (fun _ => ?_) fun _ => trivial
        · refine ⟨.one (.wrap hth (by rw [hbl]; rfl)), th, n, previous, hth, hbl, ?_⟩
          rw [if_neg (by omega), Nat.add_sub_cancel]
        · refine ⟨.one (.wrap hth (by rw [hbl]; rfl)), th, n, previous, hth, hbl, ?_⟩
          rw [if_pos (by omega)]
    · exact trivial
  | sleep now duration => exact (yieldThread_plain s (.sleeping (now + duration)) 0 trivial nofun).bind fun t ht => ⟨ht.1, ht.2⟩
  | interrupt =>
    refine (yieldThread_spec s _ _).bind ?_
    rintro _ ⟨th, hth, hru, rfl⟩
    exact ⟨.one (.block hth hru trivial (.inl ⟨rfl, rfl⟩)), th, hth, hru, rfl⟩
  | write ptr value => exact ⟨.one (.memory _), rfl⟩
  | schedule clocks => exact absurd rfl (hsch clocks)

end
end TouchHLE.Environment
