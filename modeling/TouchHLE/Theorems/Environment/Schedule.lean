import TouchHLE.Lib.Run
import TouchHLE.Theorems.Environment.Queues

/-! What the scheduler does: it picks the first thread that is ready, ends its wait and lets it go on. It can stop the
    emulator: at a mutex that is gone, at a deadline that has passed, or because no thread can execute. -/

namespace TouchHLE.Environment
open Lib List

def Needs (s : Environment) (th : Thread) (m : Nat) : Prop := th.blockedBy = .mutex m ∨
    ∃ c d o, th.blockedBy = .condition c d ∧ s.conditionVariables c = some o ∧ o.currMutex = some m

inductive Stops (s : Environment) (clock : Clock) (i : Nat) : Panic → Prop where
  | noMutex {th : Thread} {m : Nat} (thread : s.threads[i]? = some th) (needs : Needs s th m)
      (absent : s.mutexState.mutexes m = none) : Stops s clock i .noMutex
  | timeout {th : Thread} {c d m : Nat} {o : CondHostObject} {e : Panic} (thread : s.threads[i]? = some th)
      (active : th.active = true) (blocked : th.blockedBy = .condition c (some d)) (cond : s.conditionVariables c = some o)
      (mutex : o.currMutex = some m) (due : d ≤ clock.system i)
      (unwoken : ¬(o.waking.head? = some i ∧ s.mutexState.mutexIsLocked m = false))
      (reason : (e = .timedOutTwice ∧ i ∈ o.timedOut) ∨ (e = .timeoutWaking ∧ o.waking ≠ []) ∨
        (e = .timeoutLocked ∧ s.mutexState.mutexIsLocked m = true)) : Stops s clock i e
  | other {e : Panic} (other : e.ofWait = false) : Stops s clock i e

section
variable {s t env : Environment} {i m : Nat} {clock : Clock} {th : Thread} {e : Panic}
variable {s₁ : Environment} {c : Nat} {d : Option Nat} {p : Option Int × Environment} {ctx : HostContext}
variable {th₀ : Thread} {clocks : List Clock} {r : Result}

theorem thread_eq (hi : s.threads[i]? = some th) : s.thread i = .ok th := by
  rw [thread, hi]

theorem unblock_eq (hi : s.threads[i]? = some th) :
    s.unblock i = .ok (s.setThread i { th with blockedBy := .notBlocked }) := by
  rw [unblock, thread_eq hi]
  rfl

theorem relock_ends (s : Environment) (i m : Nat) : Ends (s.relockUnblockedMutexForThread i m)
    (fun t => ∃ x, s.mutexState.mutexes m = some x ∧ x.locked = none ∧
      t = s.setMutex m { x.heldBy i with waitingCount := x.waitingCount - 1 })
    fun e => (s.mutexState.mutexes m = none ∧ e = .noMutex) ∨ s.mutexState.mutexIsLocked m = true := by
  unfold relockUnblockedMutexForThread MutexState.get
  cases hx : s.mutexState.mutexes m with
  | none => exact .inl ⟨rfl, rfl⟩
  | some x =>
    obtain ⟨type, w, locked⟩ := x
    cases locked with
    | some owner => exact .inr (by simp [MutexState.mutexIsLocked, hx])
    | none =>
      refine .ite (fun _ => ⟨_, rfl, rfl, rfl⟩) fun hzr => ⟨_, rfl, rfl, ?_⟩
      obtain rfl : w = 0 := Nat.eq_zero_of_not_pos hzr
      rfl

/-- The thread whose wait the scheduler has ended, before it goes on. -/
inductive Picked (s : Environment) (i : Nat) : Environment → Prop where
  | plain {s₀ s₁ : Environment} {th : Thread} (prepared : Prepared s s₁) (woken : Woken s i th.blockedBy s₀)
      (core : s₁.core = s₀.core) (thread : s.threads[i]? = some th) (active : th.active = true) (plain : th.blockedBy.Plain) :
      Picked s i (s₁.setThread i { th with blockedBy := .notBlocked })
  | mutex {m : Nat} {th : Thread} {x : Mutex} (thread : s.threads[i]? = some th) (active : th.active = true)
      (blocked : th.blockedBy = .mutex m) (present : s.mutexState.mutexes m = some x) (free : x.locked = none) :
      Picked s i ((s.setThread i { th with blockedBy := .notBlocked }).setMutex m
        { x.heldBy i with waitingCount := x.waitingCount - 1 })
  | signalled {c m : Nat} {d : Option Nat} {th : Thread} {x : Mutex} {o : CondHostObject} {waking : List Nat}
      (thread : s.threads[i]? = some th) (active : th.active = true) (blocked : th.blockedBy = .condition c d)
      (cond : s.conditionVariables c = some o) (mutex : o.currMutex = some m) (first : o.waking = i :: waking)
      (present : s.mutexState.mutexes m = some x) (free : x.locked = none) :
      Picked s i (((s.setCond c (some { o with waking })).setThread i { th with blockedBy := .notBlocked }).setMutex m
        { x.heldBy i with waitingCount := x.waitingCount - 1 })
  | timedOut {c m d : Nat} {th : Thread} {x : Mutex} {o : CondHostObject}
      (thread : s.threads[i]? = some th) (active : th.active = true) (blocked : th.blockedBy = .condition c (some d))
      (cond : s.conditionVariables c = some o) (mutex : o.currMutex = some m) (unwaking : o.waking = [])
      (present : s.mutexState.mutexes m = some x) (free : x.locked = none) :
      Picked s i (((s.setCond c (some { o with
        timedOut := o.timedOut ++ [i], waiting := o.waiting.filter (· ≠ i) })).setThread i
          { th with blockedBy := .notBlocked }).setMutex m { x.heldBy i with waitingCount := x.waitingCount - 1 })

/-- What a look at a candidate comes to: a thread that is ready is picked, any other one is passed over. -/
inductive Examines (s : Environment) (clock : Clock) (i : Nat) : Examined → Prop where
  | scheduled {env : Environment} (ready : s.ready clock i = true) (picked : Picked s i env) :
      Examines s clock i (.scheduled env)
  | asleep {sleepingUntil : Nat} (ready : s.ready clock i = false) (asleep : s.asleep i = true) :
      Examines s clock i (.asleep sleepingUntil)
  | passed (ready : s.ready clock i = false) (awake : s.asleep i = false) : Examines s clock i .passed

theorem Picked.ends (hth : s₁.threads[i]? = some th) (hry : s.ready clock i = true)
    (hpc : Picked s i (s₁.setThread i { th with blockedBy := .notBlocked })) :
    Ends (do let s₂ ← s₁.unblock i; .ok (.scheduled s₂)) (Examines s clock i) (Stops s clock i) := by
  rw [unblock_eq hth]
  exact .scheduled hry hpc

theorem Picked.ends_locked (hth : s.threads[i]? = some th) (hth₁ : s₁.threads[i]? = some th)
    (hmt : s₁.mutexState = s.mutexState) (hry : s.ready clock i = true) (hnds : Needs s th m)
    (hfr : s.mutexState.mutexIsLocked m = false)
    (hpc : ∀ x, s.mutexState.mutexes m = some x → x.locked = none →
      Picked s i ((s₁.setThread i { th with blockedBy := .notBlocked }).setMutex m
        { x.heldBy i with waitingCount := x.waitingCount - 1 })) :
    Ends (do let s₂ ← s₁.unblock i; let s₃ ← s₂.relockUnblockedMutexForThread i m; .ok (.scheduled s₃))
      (Examines s clock i) (Stops s clock i) := by
  rw [unblock_eq hth₁, ok_bind]
  have hen := relock_ends (s₁.setThread i { th with blockedBy := .notBlocked }) i m
  change Ends _ (fun t => ∃ x, s₁.mutexState.mutexes m = some x ∧ _) fun e =>
    (s₁.mutexState.mutexes m = none ∧ _) ∨ s₁.mutexState.mutexIsLocked m = true at hen
  rw [hmt] at hen
  refine hen.andThen ?_ ?_
  · rintro _ (⟨hab, rfl⟩ | hlc)
    · exact .noMutex hth hnds hab
    · rw [hfr] at hlc
      cases hlc
  · rintro _ ⟨x, hx, hul, rfl⟩
    exact .scheduled hry (hpc x hx hul)

theorem examineCondition_ends (hth : s.threads[i]? = some th) (hac : th.active = true)
    (hbl : th.blockedBy = .condition c d) :
    Ends (s.examineCondition clock i c d) (Examines s clock i) (Stops s clock i) := by
  refine (hostCond_ends s c).andThen (fun _ => .other) ?_
  rintro ⟨waiting, waking, currMutex, timedOut⟩ ho
  cases currMutex with
  | none => exact .other rfl
  | some m =>
    have hry : s.ready clock i = (!s.mutexState.mutexIsLocked m &&
        (decide (waking.head? = some i) || (waking.isEmpty && d.any (· ≤ clock.system i)))) := by
      simp [ready, hth, hac, hbl, ho]
    have hnds : Needs s th m := .inr ⟨c, d, _, hbl, ho, rfl⟩
    refine .ite (fun hfs => ?_) fun hfs => .ite (fun hdue => ?_) fun hdue => ?_
    · simp only [Bool.and_eq_true, decide_eq_true_eq, Bool.not_eq_true'] at hfs
      obtain ⟨waking', rfl⟩ := head?_eq_some_iff.mp hfs.1
      exact Picked.ends_locked hth hth rfl (by simp [hry, hfs.2]) hnds hfs.2 fun x hx hfr =>
        .signalled hth hac hbl ho rfl rfl hx hfr
    · simp only [Bool.and_eq_true, decide_eq_true_eq, Bool.not_eq_true'] at hfs
      obtain ⟨n, rfl, hle⟩ := (Option.any_eq_true _ _).mp hdue
      have hss := fun e => Stops.timeout (e := e) hth hac hbl ho rfl (of_decide_eq_true hle) hfs
      refine .ite (fun htm => hss _ (.inl ⟨rfl, htm⟩)) fun _ => ?_
      refine .ite (fun hwk => hss _ (.inr (.inl ⟨rfl, hwk⟩))) fun hwk => ?_
      refine .ite (fun hlc => hss _ (.inr (.inr ⟨rfl, hlc⟩))) fun hnot => ?_
      have hul : s.mutexState.mutexIsLocked m = false := Bool.eq_false_iff.mpr hnot
      obtain rfl : waking = [] := of_not_not hwk
      refine Picked.ends_locked hth hth rfl ?_ hnds hul fun x hx hfr => .timedOut hth hac hbl ho rfl rfl hx hfr
      rw [hry, hdue, hul, isEmpty_nil, Bool.and_true, Bool.or_true]
      rfl
    · refine .passed ?_ (by simp [asleep, hth, hbl])
      rw [hry, eq_false_of_ne_true hdue, Bool.and_false, Bool.or_false, Bool.and_comm]
      exact eq_false_of_ne_true hfs

theorem Prepared.semaphores (openSemaphores : Nat → Option SemaphoreHostObject) : Prepared s { s with openSemaphores } :=
  ⟨.one (.semaphores _), rfl, rfl, rfl⟩

theorem Prepared.files (fileStreams : Nat → Option FileLock) : Prepared s { s with fileStreams } :=
  ⟨.one (.files _), rfl, rfl, rfl⟩

theorem Prepared.memory (mem : Nat → UInt8) : Prepared s { s with mem } := ⟨.one (.memory _), rfl, rfl, rfl⟩

theorem fileHostObj_error {file : Nat} (h : s.fileHostObj file = .error e) : e.ofWait = false := by
  have hen : Ends (s.fileHostObj file) (fun _ => True) fun e => e.ofWait = false := by
    refine .bind (P := fun _ => True) (.ite (fun _ => trivial) fun _ => rfl) fun fd _ => ?_
    split
    · exact trivial
    · exact .ite (fun _ => trivial) fun _ => rfl
  exact hen.error h

theorem tryAcquireFileObjectLock_ends (s : Environment) (file i : Nat) : Ends (s.tryAcquireFileObjectLock file i)
    (fun p => ∃ lock, s.fileHostObj file = .ok lock ∧
      ((lock.lockCount = 0 ∧ p.1 = true ∧ Prepared s p.2 ∧ Woken s i (.fileObjectLock file) p.2) ∨
        (lock.lockCount ≠ 0 ∧ p.1 = false)))
    fun e => e.ofWait = false := by
  unfold tryAcquireFileObjectLock
  cases hlo : s.fileHostObj file with
  | error e => exact fileHostObj_error hlo
  | ok lock =>
    refine .ite (fun hzr => .ite (fun _ => rfl) fun hfr => ?_) fun hzr => ⟨lock, rfl, .inr ⟨hzr, rfl⟩⟩
    exact ⟨lock, rfl, .inl ⟨hzr, rfl, .files _, .file hlo hzr (by simpa using hfr)⟩⟩

/-- A thread that is ready is picked; a thread that needs what is not there stops the emulator. -/
theorem examine_ends (s : Environment) (clock : Clock) (i : Nat) :
    Ends (s.examine clock i) (Examines s clock i) (Stops s clock i) := by
  refine (thread_ends s i).andThen (fun _ => .other) ?_
  rintro ⟨active, blockedBy, returnValue, ctx⟩ hth
  cases active with
  | false => exact .passed (by simp [ready, hth]) (by simp [asleep, hth])
  | true =>
    refine .ite nofun fun _ => ?_
    cases blockedBy with
    | notBlocked =>
      have hsm : s.setThread i ⟨true, .notBlocked, returnValue, ctx⟩ = s := by
        obtain ⟨hlt, hget⟩ := List.getElem?_eq_some_iff.mp hth
        unfold setThread
        rw [← hget, set_getElem_self]
      have hpc : Picked s i (s.setThread i ⟨true, .notBlocked, returnValue, ctx⟩) :=
        .plain (.refl s) .notBlocked rfl hth rfl trivial
      rw [hsm] at hpc
      exact .scheduled (by simp [ready, hth]) hpc
    | sleeping sleepingUntil =>
      have hry : s.ready clock i = decide (sleepingUntil ≤ clock.instant i) := by simp [ready, hth]
      refine .ite (fun hdue => ?_) fun hdue => .asleep (hry.trans (decide_eq_false hdue)) (by simp [asleep, hth])
      exact Picked.ends hth (hry.trans (decide_eq_true hdue)) (.plain (.refl s) (.sleeping _) rfl hth rfl trivial)
    | mutex m =>
      have hry : s.ready clock i = !s.mutexState.mutexIsLocked m := by simp [ready, hth]
      refine .ite (fun hfr => ?_) fun hlc =>
        .passed (hry.trans (eq_false_of_ne_true hlc)) (by simp [asleep, hth])
      exact Picked.ends_locked hth hth rfl (hry.trans hfr) (.inl rfl) (by simpa using hfr) fun x hx hul =>
        .mutex hth rfl rfl hx hul
    | semaphore sem =>
      refine (hostSem_ends s sem).andThen (fun _ => .other) fun o ho => ?_
      have hry : s.ready clock i = decide (0 < o.value) := by simp [ready, hth, ho]
      refine .ite (fun hpos => ?_) fun hpos => .passed (hry.trans (decide_eq_false hpos)) (by simp [asleep, hth])
      exact Picked.ends hth (hry.trans (decide_eq_true hpos))
        (.plain (.semaphores _) (.semaphore ho hpos) rfl hth rfl trivial)
    | condition c d => exact examineCondition_ends hth rfl rfl
    | joining joinee ptr =>
      refine (thread_ends s joinee).andThen (fun _ => .other) ?_
      rintro ⟨active', blockedBy', value?, ctx'⟩ hjon
      have hry : s.ready clock i = !active' := by simp [ready, hth, hjon]
      refine .ite (fun hdn => ?_) fun hdn => .passed (hry.trans (eq_false_of_ne_true hdn)) (by simp [asleep, hth])
      refine .ite (fun _ => ?_) fun _ => ?_
      · exact Picked.ends hth (hry.trans hdn) (.plain (.refl s) (.joining _ _) rfl hth rfl trivial)
      · cases value? with
        | none => exact .other rfl
        | some value =>
          refine .bind (P := fun t => ∃ mem, t = { s with mem }) (.ite (fun _ => ⟨_, rfl⟩) fun _ => .other rfl) ?_
          rintro _ ⟨mem, rfl⟩
          exact Picked.ends hth (hry.trans hdn) (.plain (.memory mem) (.joining _ _) rfl hth rfl trivial)
    | waitingForDebugger => exact .other rfl
    | suspended count previous =>
      exact .ite (fun _ => .passed (by simp [ready, hth]) (by simp [asleep, hth])) fun _ => .other rfl
    | fileObjectLock file =>
      refine (tryAcquireFileObjectLock_ends s file i).andThen (fun _ => .other) ?_
      rintro ⟨acquired, s₁⟩ ⟨lock, hobj, ⟨hzr, rfl, hp, hwo⟩ | ⟨hzr, rfl⟩⟩
      · refine Picked.ends (hp.threads ▸ hth) (by simp [ready, hth, hobj, hzr]) ?_
        exact .plain hp hwo rfl hth rfl trivial
      · exact .passed (by simp [ready, hth, hobj, hzr]) (by simp [asleep, hth])

/-- One pass: the first candidate that is ready is picked; if there is none, everything sleeps. It stops at a thread that
    it looks at, or because nothing will ever be ready. -/
theorem scan_ends (s : Environment) (clock : Clock) (l : List Nat) : ∀ next, Ends (s.scan clock l next)
    (fun p => match p with
      | .scheduled i env => l.find? (s.ready clock) = some i ∧ Picked s i env
      | .sleep _ => l.find? (s.ready clock) = none)
    fun e => (∃ i ∈ Vec.upTo (s.ready clock) l, Stops s clock i e) ∨
      (e = .deadlocked ∧ next = none ∧ ∀ j ∈ l, s.ready clock j = false ∧ s.asleep j = false) := by
  induction l with
  | nil =>
    intro next
    cases next with
    | none => exact .inr ⟨rfl, rfl, fun j hj => absurd hj not_mem_nil⟩
    | some next => exact rfl
  | cons j l ih =>
    intro next
    refine (examine_ends s clock j).andThen (fun e hss => .inl ⟨j, Vec.mem_upTo_head _ j l, hss⟩) fun r hr => ?_
    cases hr with
    | scheduled hry hpc => exact ⟨find?_cons_of_pos hry, hpc⟩
    | asleep hry =>
      rw [find?_cons_of_neg (ne_true_of_eq_false hry)]
      refine (ih _).imp_error fun e he => ?_
      rcases he with ⟨i, hi, hss⟩ | ⟨-, hau, -⟩
      · exact .inl ⟨i, Vec.mem_upTo_tail hry hi, hss⟩
      · cases hau
    | passed hry haw =>
      rw [find?_cons_of_neg (ne_true_of_eq_false hry)]
      refine (ih next).imp_error fun e he => ?_
      rcases he with ⟨i, hi, hss⟩ | ⟨he, hno, hrt⟩
      · exact .inl ⟨i, Vec.mem_upTo_tail hry hi, hss⟩
      · exact .inr ⟨he, hno, forall_mem_cons.mpr ⟨⟨hry, haw⟩, hrt⟩⟩

inductive ScheduleStops (s : Environment) (clock : Clock) (e : Panic) : Prop where
  | candidate {i : Nat} (reached : i ∈ s.reached clock) (stops : Stops s clock i e)
  | deadlocked (panic : e = .deadlocked) (blocked : ∀ j ∈ s.candidates, s.ready clock j = false ∧ s.asleep j = false)

/-- The thread that is picked is the first one that is ready by one of the readings. -/
theorem scheduleNextThread_ends (s : Environment) (clocks : List Clock) : Ends (s.scheduleNextThread clocks)
    (fun r => ∀ i env, r = some (i, env) → ∃ clock ∈ s.readings clocks, s.firstReady clock = some i ∧ Picked s i env)
    fun e => ∃ clock ∈ s.readings clocks, ScheduleStops s clock e := by
  induction clocks with
  | nil => exact nofun
  | cons clock clocks ih =>
    refine (scan_ends s clock s.candidates none).andThen (fun e he => ?_) fun p hp => ?_
    · refine ⟨clock, Vec.mem_upTo_head _ clock clocks, ?_⟩
      rcases he with ⟨i, hi, hss⟩ | ⟨he, -, hbk⟩
      · exact .candidate hi hss
      · exact .deadlocked he hbk
    · cases p with
      | scheduled j env =>
        rintro _ _ ⟨⟩
        exact ⟨clock, Vec.mem_upTo_head _ clock clocks, hp⟩
      | sleep next =>
        have hno : s.firstReady clock = none := hp
        have hlr : ∀ clock' ∈ s.readings clocks, clock' ∈ s.readings (clock :: clocks) := fun clock' hmem =>
          Vec.mem_upTo_tail (by rw [hno]; rfl) hmem
        refine (ih.imp fun r hr i env hri => ?_).imp_error fun e he => ?_
        · obtain ⟨clock', hmem, hfs⟩ := hr i env hri
          exact ⟨clock', hlr clock' hmem, hfs⟩
        · obtain ⟨clock', hmem, hss⟩ := he
          exact ⟨clock', hlr clock' hmem, hss⟩

/-! ### The thread goes on -/

/-- What the thread that was picked does: it returns to guest code, with the value of the host function that it was in.
    A thread that waited for a mutex has it now. -/
inductive Resumed (s : Environment) (i : Nat) : HostContext → Option Int → Environment → Prop where
  | guest {t : Environment} (steps : Steps s [] t) : Resumed s i .guest none t
  | returning {v : Int} {t : Environment} (steps : Steps s [] t) : Resumed s i (.returning v) (some v) t
  | locked {m : Nat} {t : Environment} (step : Step s [.acquired i m] t) : Resumed s i (.lockMutex m) (some 0) t
  | waited {c m : Nat} {d : Option Nat} {v : Int} {th : Thread} {o : CondHostObject} {t : Environment}
      (thread : s.threads[i]? = some th) (blocked : th.blockedBy = .condition c d)
      (cond : s.conditionVariables c = some o) (mutex : o.currMutex = some m)
      (value : v = 0 ∨ (d.isSome ∧ v = ETIMEDOUT)) (step : Step s [.regained i m] t) :
      Resumed s i (.waiting c m d) (some v) t

theorem switchThread_ends (s : Environment) (i : Nat) : Ends (s.switchThread i)
    (fun t => t = { s with currentThread := i, executing := true }) fun e => e.ofWait = false :=
  (thread_ends s i).bind fun _ _ => .ite (fun _ => rfl) fun _ => rfl

/-- What becomes of a thread that goes on with what it was in the middle of. -/
def Continued (s : Environment) (th : Thread) (p : Option Int × Environment) : Prop :=
  let back := s.setThread s.currentThread { th with hostContext := .guest }
  match th.hostContext with
  | .guest => p = (none, back)
  | .returning v => p = (some v, back)
  | .lockMutex _ | .condWait _ _ => p = (some 0, back)
  | .condTimedwait c _ => ∃ o, s.conditionVariables c = some o ∧ p =
    if s.currentThread ∈ o.timedOut then
      (some ETIMEDOUT, back.setCond c (some { o with timedOut := o.timedOut.filter (· ≠ s.currentThread) }))
    else (some 0, back)

/-- Whether or not the wait has a deadline, it returns 0 if the thread was not timed out. -/
theorem Continued.waited {m : Nat} {active} {blockedBy} {returnValue}
    (h : Continued s ⟨active, blockedBy, returnValue, .waiting c m d⟩ p)
    (htm : ∀ o, s.conditionVariables c = some o → s.currentThread ∉ o.timedOut) :
    p = (some 0, s.setThread s.currentThread ⟨active, blockedBy, returnValue, .guest⟩) := by
  cases d with
  | none => exact h
  | some d =>
    obtain ⟨o, ho, rfl⟩ := h
    exact if_neg (htm o ho)

theorem resumeContext_ends (hth : s.threads[s.currentThread]? = some th) :
    Ends s.resumeContext (Continued s th) fun e => e.ofWait = false := by
  unfold resumeContext
  rw [thread_eq hth]
  refine .ite (fun _ => rfl) fun _ => ?_
  obtain ⟨active, blockedBy, returnValue, ctx⟩ := th
  cases ctx with
  | guest | returning v | lockMutex m => exact rfl
  | condWait c m => exact (hostCond_ends s c).bind fun _ _ => .ite (fun _ => rfl) fun _ => rfl
  | condTimedwait c m =>
    refine (hostCond_ends s c).bind fun o ho => .ite (fun hin => ⟨o, ho, ?_⟩) fun hin => ⟨o, ho, ?_⟩
    · rw [if_pos hin]
    · rw [if_neg hin]

theorem Settled.of_plain {th} (h : Settled s i th) (hpa : th.blockedBy.Plain) :
    th.hostContext = .guest ∨ ∃ v, th.hostContext = .returning v := by
  unfold Settled at h
  cases hb : th.blockedBy with
  | notBlocked =>
    rw [hb] at h
    exact .inl h
  | sleeping | semaphore | joining | fileObjectLock =>
    rw [hb] at h
    exact .inr h
  | mutex | condition | waitingForDebugger | suspended =>
    rw [hb] at hpa
    exact hpa.elim

theorem Settled.waits {th} {m : Nat} {o} (h : Settled s i th)
    (hbl : th.blockedBy = .condition c d) (hc : s.conditionVariables c = some o) (hm : o.currMutex = some m) :
    th.hostContext = .waiting c m d := by
  rw [Settled, hbl] at h
  obtain ⟨o', m', hc', hm', -, hctx⟩ := h
  obtain rfl : o = o' := Option.some_inj.mp (hc.symm.trans hc')
  obtain rfl : m = m' := Option.some_inj.mp (hm.symm.trans hm')
  exact hctx

theorem executes_core (env : Environment) (hcr : env.core = s₁.core) :
    ({ env.setThread i { th with blockedBy := .notBlocked } with currentThread := i, executing := true }.setThread i
      { th with blockedBy := .notBlocked, hostContext := .guest }).core = (s₁.executes i th).core := by
  change { (env.core.setThread i { th with blockedBy := .notBlocked }) with currentThread := i, executing := true }.setThread i
      { th with blockedBy := .notBlocked, hostContext := .guest } = s₁.core.executes i th
  rw [hcr]
  simp [executes, setThread]

theorem Woken.threads_eq {b} (h : Woken s i b s₁) : s₁.threads = s.threads ∧ b.isSuspended = false := by
  cases h <;> exact ⟨rfl, rfl⟩

def Goes (s : Environment) (i : Nat) (ctx : HostContext) (t : Environment) : Prop :=
  ∃ th s₁, s.threads[i]? = some th ∧ th.active = true ∧ th.hostContext = ctx ∧ Woken s i th.blockedBy s₁ ∧
    t.core = (s₁.executes i th).core

theorem Goes.current (h : Goes s i ctx t) : t.currentThread = i := by
  obtain ⟨th, s₁, -, -, -, -, hcr⟩ := h
  exact current_of_core hcr

theorem Goes.context (h : Goes s i ctx t) : ∃ th, s.threads[i]? = some th ∧ th.hostContext = ctx := by
  obtain ⟨th, s₁, hth, -, hctx, -⟩ := h
  exact ⟨th, hth, hctx⟩

theorem Goes.others (h : Goes s i ctx t) (j : Nat) (hj : j ≠ i) : t.threads[j]? = s.threads[j]? := by
  obtain ⟨th, s₁, -, -, -, hwo, hcr⟩ := h
  rw [threads_of_core hcr, ← hwo.threads_eq.1]
  exact getElem?_set_ne (Ne.symm hj)

def Resumes (s : Environment) (i : Nat) (env : Environment) (p : Option Int × Environment) : Prop :=
  ∃ ctx, (∀ th, env.threads[i]? = some th → th.hostContext = ctx) ∧ Resumed s i ctx p.1 p.2 ∧ Goes s i ctx p.2

theorem picked_thread {threads : List Thread} (h : threads[i]? = some th₀) (th : Thread) :
    (threads.set i th)[i]? = some th := by
  rw [List.getElem?_set_self (List.getElem?_eq_some_iff.mp h).1]

theorem Resumes.of (hth : s.threads[i]? = some th₀) (hac : th₀.active = true) (hctx : th₀.hostContext = ctx)
    (hset : env.threads[i]? = some { th₀ with blockedBy := .notBlocked }) (hrs : Resumed s i ctx p.1 p.2)
    (hwo : Woken s i th₀.blockedBy s₁) (hcr : p.2.core = (s₁.executes i th₀).core) : Resumes s i env p := by
  refine ⟨ctx, fun th hi => ?_, hrs, th₀, s₁, hth, hac, hctx, hwo, hcr⟩
  rw [hset] at hi
  cases hi
  exact hctx

theorem Picked.resumes (hpc : Picked s i env) :
    Ends ({ env with currentThread := i, executing := true }.resumeContext) (fun p => Inv s → Resumes s i env p)
      fun e => e.ofWait = false := by
  cases hpc with
  | @plain s₀ s₁ th₀ hp hwo hcr hth₀ hac hpa =>
    have hth₁ : s₁.threads[i]? = some th₀ := hp.threads ▸ hth₀
    have hset := picked_thread hth₁ { th₀ with blockedBy := .notBlocked }
    refine (resumeContext_ends hset).imp fun p hci hinv => ?_
    have hse : Steps s [] (s₁.executes i th₀) := hp.steps.step (.wake hth₁ hac hpa)
    have hctx := (hinv.settled i th₀ hth₀).of_plain hpa
    obtain ⟨active, blockedBy, returnValue, ctx⟩ := th₀
    rcases hctx with rfl | ⟨w, rfl⟩
    · obtain rfl : p = _ := hci
      refine .of hth₀ hac rfl hset (.guest ?_) hwo (executes_core s₁ hcr)
      simpa [executes, setThread] using hse
    · obtain rfl : p = _ := hci
      refine .of hth₀ hac rfl hset (.returning ?_) hwo (executes_core s₁ hcr)
      simpa [executes, setThread] using hse
  | @mutex m th₀ x hth₀ hac hbl hx hfr =>
    have hset := picked_thread hth₀ { th₀ with blockedBy := .notBlocked }
    refine (resumeContext_ends hset).imp fun p hci hinv => ?_
    have hsd := hinv.settled i th₀ hth₀
    have hst := Step.wakeMutex hth₀ hac hbl hx hfr
    obtain ⟨active, blockedBy, returnValue, ctx⟩ := th₀
    obtain rfl : blockedBy = .mutex m := hbl
    obtain rfl : ctx = .lockMutex m := hsd
    obtain rfl : p = _ := hci
    refine .of hth₀ hac rfl hset (.locked ?_) (.mutex m) (executes_core (s.setMutex m _) rfl)
    simpa [executes, setThread, setMutex] using hst
  | @signalled c m d th₀ x o waking hth₀ hac hbl hc hm hfs hx hfr =>
    have hset := picked_thread hth₀ { th₀ with blockedBy := .notBlocked }
    refine (resumeContext_ends hset).imp fun p hci hinv => ?_
    have hctx := (hinv.settled i th₀ hth₀).waits hbl hc hm
    have hst := Step.wakeSignalled hth₀ hac hbl hc hm hfs hx hfr
    obtain ⟨active, blockedBy, returnValue, ctx⟩ := th₀
    obtain rfl : blockedBy = .condition c d := hbl
    obtain rfl : ctx = .waiting c m d := hctx
    obtain rfl := Continued.waited hci fun o' ho' => by
      obtain rfl : { o with waking := waking } = o' := by
        simpa [setMutex, setThread, setCond] using ho'
      rw [hinv.timedOut c o hc]
      exact not_mem_nil
    refine .of hth₀ hac rfl hset (.waited hth₀ rfl hc hm (.inl rfl) ?_) (.signalled hc hfs)
      (executes_core ((s.setCond c (some { o with waking })).setMutex m _) rfl)
    simpa [executes, setThread, setMutex, setCond] using hst
  | @timedOut c m d th₀ x o hth₀ hac hbl hc hm hwk hx hfr =>
    have hset := picked_thread hth₀ { th₀ with blockedBy := .notBlocked }
    refine (resumeContext_ends hset).imp fun p hci hinv => ?_
    have hctx := (hinv.settled i th₀ hth₀).waits hbl hc hm
    have htm := hinv.timedOut c o hc
    have hst := Step.wakeTimedOut hth₀ hac hbl hc hm hwk hx hfr
    obtain ⟨active, blockedBy, returnValue, ctx⟩ := th₀
    obtain rfl : blockedBy = .condition c (some d) := hbl
    obtain rfl : ctx = .waiting c m (some d) := hctx
    obtain ⟨o', ho', hci⟩ := hci
    obtain rfl : { o with timedOut := o.timedOut ++ [i], waiting := o.waiting.filter (· ≠ i) } = o' := by
      simpa [setMutex, setThread, setCond] using ho'
    rw [if_pos (mem_append_right _ mem_cons_self)] at hci
    subst hci
    refine .of hth₀ hac rfl hset (.waited hth₀ rfl hc hm (.inr ⟨rfl, rfl⟩) ?_) (.timedOut hc hwk) ?_
    · simpa [executes, setThread, setMutex, setCond, htm] using hst
    · simp [executes, setThread, setMutex, setCond, core, htm]

/-- What scheduling comes to: nothing happens while everything sleeps; otherwise a thread goes on. -/
inductive Scheduled (s : Environment) (clocks : List Clock) : Result → Environment → Prop where
  | slept : Scheduled s clocks .slept s
  | resumed {clock : Clock} {i : Nat} {ctx : HostContext} {v : Option Int} {t : Environment} (reading : clock ∈ s.readings clocks)
      (first : s.firstReady clock = some i) (goes : Goes s i ctx t) (resumed : Resumed s i ctx v t) :
      Scheduled s clocks (.resumed ctx v) t

theorem schedule_ends (s : Environment) (clocks : List Clock) : Ends (s.schedule clocks)
    (fun p => Inv s → Scheduled s clocks p.1 p.2)
    fun e => (∃ clock ∈ s.readings clocks, ScheduleStops s clock e) ∨ e.ofWait = false := by
  refine (scheduleNextThread_ends s clocks).andThen (fun _ => .inl) fun next hnx => ?_
  rcases next with _ | ⟨i, env⟩
  · exact fun _ => .slept
  · obtain ⟨clock, hck, hfs, hpc⟩ := hnx i env rfl
    refine (switchThread_ends env i).andThen (fun _ => .inr) ?_
    rintro _ rfl
    refine (thread_ends _ i).andThen (fun _ => .inr) fun th hth => ?_
    refine hpc.resumes.andThen (fun _ => .inr) ?_
    rintro ⟨v, t⟩ hreu hinv
    obtain ⟨ctx, hctx, hrs, hgs⟩ := hreu hinv
    obtain rfl := hctx th hth
    exact .resumed hck hfs hgs hrs

theorem schedule_spec (hinv : Inv s) (h : s.schedule clocks = .ok (r, t)) :
    Scheduled s clocks r t := (schedule_ends s clocks).ok h hinv

theorem schedule_error (h : s.schedule clocks = .error e) :
    (∃ clock ∈ s.readings clocks, ScheduleStops s clock e) ∨ e.ofWait = false := (schedule_ends s clocks).error h

theorem Resumed.steps {v} (h : Resumed s i ctx v t)
    (hcu : t.currentThread = i) : Steps s (events s (.schedule clocks) (.resumed ctx v) t) t := by
  subst hcu
  cases h with
  | guest steps | returning steps => exact steps
  | locked step => exact .one step
  | @waited c m d v th o t _ _ _ _ _ step =>
    cases d with
    | none | some d => exact .one step

theorem Inv.call_steps {c} (hinv : Inv s) (h : s.call c = .ok (r, t)) : Steps s (events s c r t) t := by
  by_cases hsch : ∃ clocks, c = .schedule clocks
  · obtain ⟨clocks, rfl⟩ := hsch
    cases schedule_spec hinv h with
    | slept => exact .refl
    | resumed _ _ hgs hres => exact hres.steps hgs.current
  · exact ((call_spec s c fun clocks hc => hsch ⟨clocks, hc⟩).ok h).steps

theorem Inv.steps {es} (hinv : Inv s) (h : Steps s es t) : Inv t := by
  induction h with
  | refl => exact hinv
  | step _ hst ih => exact hst.inv ih

theorem Inv.start (mem : Nat → UInt8) (fileStreams : Nat → Option FileLock) : Inv (start mem fileStreams) where
  settled := fun i th hi => by
    obtain rfl : th = ⟨true, .notBlocked, none, .guest⟩ := by
      have hmem := mem_of_getElem? hi
      simpa [Environment.start] using hmem
    exact rfl
  queued := fun _ _ h => nomatch h
  nodup := fun _ _ h => nomatch h
  timedOut := fun _ _ h => nomatch h
  fresh := fun _ _ => rfl

theorem inv_of_runs {mem} {fileStreams}
    (h : Runs call Enabled (start mem fileStreams) s) : Inv s :=
  h.invariant (.start mem fileStreams) fun _ _ _ _ hs _ hcl => hs.steps (hs.call_steps hcl)

end
end TouchHLE.Environment
