import TouchHLE.Theorems.Environment.Schedule

/-! What every call does to the threads, the queues of condition variables, the semaphores and the locks of files: what
    it leaves alone, and which threads can change. -/

namespace TouchHLE.Environment
open Lib ThreadBlock
variable {r : Result}

theorem schedule_effect {s t} {clocks} (hinv : Inv s)
    (h : s.schedule clocks = .ok (r, t)) : Effect s r t (.schedule clocks) := by
  cases schedule_spec hinv h with
  | slept => exact .inl ⟨rfl, rfl⟩
  | resumed hck hfs hgs _ =>
    obtain ⟨th, s₁, hth, hac, rfl, hwo, hcr⟩ := hgs
    exact .inr ⟨_, _, th, _, s₁, hck, hfs, hth, hac, rfl, hwo, hcr⟩

theorem Inv.effect {s t} {c} (hinv : Inv s) (h : s.call c = .ok (r, t)) :
    Effect s r t c := by
  by_cases hsch : ∃ clocks, c = .schedule clocks
  · obtain ⟨clocks, rfl⟩ := hsch
    exact schedule_effect hinv h
  · exact ((call_spec s c fun clocks hc => hsch ⟨clocks, hc⟩).ok h).effect

/-- The calls that can change a condition variable, a semaphore or the lock of a `FILE`. -/
def Call.onConds : Call → Bool
  | .pthreadCondInit _ _ | .pthreadCondDestroy _ | .pthreadCondWait _ _ | .pthreadCondTimedwait _ _ _
  | .pthreadCondSignal _ | .pthreadCondBroadcast _ | .schedule _ => true
  | _ => false

def Call.onSems : Call → Bool
  | .semInit _ _ | .semDestroy _ | .semPost _ | .semWait _ | .semTrywait _ | .schedule _ => true
  | _ => false

def Call.onFiles : Call → Bool
  | .flockfile _ | .ftrylockfile _ | .funlockfile _ | .schedule _ => true
  | _ => false

structure Frame (s t : Environment) (c : Call) : Prop where
  conds : c.onConds = false → t.conditionVariables = s.conditionVariables
  sems : c.onSems = false → t.openSemaphores = s.openSemaphores
  files : c.onFiles = false → t.fileStreams = s.fileStreams

def Call.mayBlock : Call → ThreadBlock → Prop
  | .lockMutex _, .mutex _ | .pthreadMutexLock _, .mutex _ | .pthreadMutexTrylock _, .mutex _ => True
  | .pthreadCondWait c _, .condition c' none => c' = c
  | .pthreadCondTimedwait c _ _, .condition c' (some _) => c' = c
  | .semWait sem, .semaphore sem' => sem' = sem
  | .flockfile file, .fileObjectLock file' => file' = file
  | .join joinee ptr, .joining joinee' ptr' => joinee' = joinee ∧ ptr' = ptr
  | .sleep now duration, .sleeping sleepingUntil => sleepingUntil = now + duration
  | .interrupt, .notBlocked => True
  | _, _ => False

/-- What becomes of the threads: nothing, or the current one yields or ends, one is created, one is suspended or resumed,
    or one that waited goes on. -/
inductive Moves (s : Environment) (t : Environment) : Call → Prop where
  | same {c : Call} (other : ∀ i, c ≠ .suspendThread i ∧ c ≠ .resumeThread i) (threads : t.threads = s.threads)
      (current : t.currentThread = s.currentThread) (executing : t.executing = s.executing) : Moves s t c
  | yields {c : Call} {th : Thread} {b : ThreadBlock} {rest : HostContext} (thread : s.threads[s.currentThread]? = some th)
      (runs : th.blockedBy = .notBlocked) (may : c.mayBlock b)
      (threads : t.threads = s.threads.set s.currentThread { th with blockedBy := b, hostContext := rest })
      (stops : t.executing = false) : Moves s t c
  | created (new : t = s.newThread.2) : Moves s t .newThread
  | ends {th : Thread} {v : Nat} (thread : s.threads[s.currentThread]? = some th)
      (threads : t.threads = s.threads.set s.currentThread { th with active := false, returnValue := some v })
      (stops : t.executing = false) : Moves s t (.exitThread v)
  | suspended {i : Nat} {th : Thread} (thread : s.threads[i]? = some th)
      (new : t = s.setThread i { th with blockedBy := th.blockedBy.suspend }) : Moves s t (.suspendThread i)
  | resumed {i count : Nat} {th : Thread} {previous : ThreadBlock} (thread : s.threads[i]? = some th)
      (blocked : th.blockedBy = .suspended (count + 1) previous)
      (new : t = s.setThread i { th with blockedBy := if count = 0 then previous else .suspended count previous }) :
      Moves s t (.resumeThread i)
  | wakes {i : Nat} {th : Thread} {clocks : List Clock} (thread : s.threads[i]? = some th) (active : th.active = true)
      (unsuspended : th.blockedBy.isSuspended = false)
      (threads : t.threads = s.threads.set i { th with blockedBy := .notBlocked, hostContext := .guest })
      (current : t.currentThread = i) (executing : t.executing = true) : Moves s t (.schedule clocks)

section
variable {s t : Environment} {c : Call} {i : Nat} {th : Thread}
variable {b : ThreadBlock} {s₁ : Environment} {rest : HostContext} {th' : Thread}

theorem Call.mayBlock.not_schedule (h : c.mayBlock b) : ∀ clocks, c ≠ .schedule clocks := by
  rintro clocks rfl
  exact h

theorem Call.mayBlock.unsuspended (h : c.mayBlock b) : b.isSuspended = false := by
  cases b with
  | suspended => cases c <;> exact h.elim
  | _ => rfl

structure Change (s t : Environment) (c : Call) : Prop extends Frame s t c where
  threads : t.threads = s.threads
  current : t.currentThread = s.currentThread
  executing : t.executing = s.executing

theorem Change.of_core (h : t.core = s.core) : Change s t c :=
  ⟨⟨fun _ => conds_of_core h, fun _ => sems_of_core h, fun _ => files_of_core h⟩, threads_of_core h, current_of_core h,
    executing_of_core h⟩

theorem Change.setCond {cond : Nat} {o} (hc : c.onConds = true)
    (h : t.core = (s.setCond cond o).core) : Change s t c :=
  have hcg : Change (s.setCond cond o) t c := .of_core h
  ⟨⟨fun hnot => absurd (hc.symm.trans hnot) Bool.noConfusion, hcg.sems, hcg.files⟩, hcg.threads, hcg.current, hcg.executing⟩

theorem Change.setSem {sem : Nat} {o} (hc : c.onSems = true) : Change s (s.setSem sem o) c :=
  ⟨⟨fun _ => rfl, fun hnot => absurd (hc.symm.trans hnot) Bool.noConfusion, fun _ => rfl⟩, rfl, rfl, rfl⟩

theorem Change.setFile {file : Nat} {lock} (hc : c.onFiles = true) : Change s (s.setFile file lock) c :=
  ⟨⟨fun _ => rfl, fun _ => rfl, fun hnot => absurd (hc.symm.trans hnot) Bool.noConfusion⟩, rfl, rfl, rfl⟩

theorem Change.still (h : Change s t c) (hoh : ∀ i, c ≠ .suspendThread i ∧ c ≠ .resumeThread i := by simp) :
    Frame s t c ∧ Moves s t c := ⟨h.toFrame, .same hoh h.threads h.current h.executing⟩

theorem Change.yields (h : Change s s₁ c) (hyl : Yields s₁ b rest t) (hmay : c.mayBlock b) : Frame s t c ∧ Moves s t c := by
  obtain ⟨th, hth, hru, hcr⟩ := hyl
  have hset : t.threads = s₁.threads.set s₁.currentThread { th with blockedBy := b, hostContext := rest } :=
    threads_of_core hcr
  rw [h.threads, h.current] at hth hset
  have hfm : Change (s₁.yielded th b rest) t c := .of_core hcr
  refine ⟨⟨fun hc => (hfm.conds hc).trans (h.conds hc), fun hc => (hfm.sems hc).trans (h.sems hc),
    fun hc => (hfm.files hc).trans (h.files hc)⟩, .yields hth hru hmay hset (executing_of_core hcr)⟩

theorem Effect.frame_moves (h : Effect s r t c) : Frame s t c ∧ Moves s t c := by
  cases c with
  | initMutex | destroyMutex | unlockMutex | pthreadMutexInit | pthreadMutexDestroy | pthreadMutexUnlock | write =>
    exact (Change.of_core h).still
  | lockMutex | pthreadMutexLock | pthreadMutexTrylock =>
    rcases h with hcr | ⟨m, -, hyl⟩
    · exact (Change.of_core hcr).still
    · exact (Change.of_core rfl).yields hyl trivial
  | pthreadCondInit c attr => exact (Change.setCond rfl h.2).still
  | pthreadCondDestroy c =>
    rcases h with ⟨-, hcr⟩ | ⟨-, -, -, hcr⟩
    · exact (Change.of_core hcr).still
    · exact (Change.setCond rfl hcr).still
  | pthreadCondWait c mutex =>
    rcases h with ⟨-, hcr⟩ | ⟨m, -, hyl⟩
    · exact (Change.of_core hcr).still
    · exact (Change.setCond rfl rfl).yields hyl rfl
  | pthreadCondTimedwait c mutex absTime =>
    rcases h with ⟨-, hcr⟩ | ⟨m, d, -, hyl⟩
    · exact (Change.of_core hcr).still
    · exact (Change.setCond rfl rfl).yields hyl rfl
  | pthreadCondSignal c | pthreadCondBroadcast c =>
    rcases h with ⟨-, hcr⟩ | ⟨-, hcr⟩
    · exact (Change.of_core hcr).still
    · exact (Change.setCond rfl hcr).still
  | semInit sem value =>
    obtain ⟨-, rfl⟩ := h
    unfold semInit
    split
    · exact (Change.of_core rfl).still
    · exact (Change.setSem rfl).still
  | semDestroy sem =>
    obtain rfl : t = (s.semDestroy sem).2 := h
    unfold semDestroy
    split
    · exact (Change.setSem rfl).still
    · exact (Change.of_core rfl).still
  | semPost sem =>
    obtain ⟨o, -, -, rfl⟩ := h
    exact (Change.setSem rfl).still
  | semWait sem =>
    obtain ⟨o, -, ⟨-, -, rfl⟩ | ⟨-, -, hyl⟩⟩ := h
    · exact (Change.setSem rfl).still
    · exact (Change.setSem rfl).yields hyl rfl
  | semTrywait sem =>
    obtain ⟨o, -, ⟨-, -, rfl⟩ | ⟨-, -, rfl⟩⟩ := h
    · exact (Change.setSem rfl).still
    · exact (Change.of_core rfl).still
  | flockfile file =>
    obtain ⟨lock, -, ⟨-, -, hyl⟩ | ⟨-, -, rfl⟩⟩ := h
    · exact (Change.setFile rfl).yields hyl rfl
    · exact (Change.setFile rfl).still
  | ftrylockfile file =>
    obtain ⟨lock, -, ⟨-, -, rfl⟩ | ⟨-, -, rfl⟩⟩ := h
    · exact (Change.setFile rfl).still
    · exact (Change.setFile rfl).still
  | funlockfile file =>
    obtain ⟨lock, -, -, -, -, rfl⟩ := h
    exact (Change.setFile rfl).still
  | newThread =>
    obtain rfl : t = s.newThread.2 := h
    exact ⟨⟨fun _ => rfl, fun _ => rfl, fun _ => rfl⟩, .created rfl⟩
  | exitThread v =>
    obtain ⟨th, hth, rfl⟩ := h
    exact ⟨⟨fun _ => rfl, fun _ => rfl, fun _ => rfl⟩, .ends hth rfl rfl⟩
  | join => exact (Change.of_core rfl).yields h ⟨rfl, rfl⟩
  | sleep => exact (Change.of_core rfl).yields h rfl
  | interrupt => exact (Change.of_core rfl).yields h trivial
  | suspendThread i =>
    obtain ⟨th, hth, rfl⟩ := h
    exact ⟨⟨fun _ => rfl, fun _ => rfl, fun _ => rfl⟩, .suspended hth rfl⟩
  | resumeThread i =>
    obtain ⟨th, count, previous, hth, hbl, rfl⟩ := h
    exact ⟨⟨fun _ => rfl, fun _ => rfl, fun _ => rfl⟩, .resumed hth hbl rfl⟩
  | schedule clocks =>
    rcases h with ⟨-, rfl⟩ | ⟨clock, i, th, v, s₁, -, -, hth, hac, -, hwo, hcr⟩
    · exact (Change.of_core rfl).still
    · obtain ⟨htr, hup⟩ := hwo.threads_eq
      refine ⟨⟨Bool.noConfusion, Bool.noConfusion, Bool.noConfusion⟩, ?_⟩
      refine .wakes hth hac hup ?_ (current_of_core hcr) (executing_of_core hcr)
      rw [threads_of_core hcr, ← htr]
      rfl

theorem Effect.frame (h : Effect s r t c) : Frame s t c := h.frame_moves.1

theorem Effect.moves (h : Effect s r t c) : Moves s t c := h.frame_moves.2

theorem Moves.forall_blocks {P : ThreadBlock → Prop} (hmv : Moves s t c) (hnot : P .notBlocked)
    (hmay : ∀ b, c.mayBlock b → P b) (hssp : ∀ i b, c = .suspendThread i → P b → P b.suspend)
    (hrsm : ∀ i count previous, c = .resumeThread i → P (.suspended (count + 1) previous) →
      P (if count = 0 then previous else .suspended count previous))
    (h : ∀ (i : Nat) (th : Thread), s.threads[i]? = some th → P th.blockedBy) :
    ∀ (i : Nat) (th : Thread), t.threads[i]? = some th → P th.blockedBy := by
  have hset : ∀ {i : Nat} {th th' : Thread}, s.threads[i]? = some th → t.threads = s.threads.set i th' → P th'.blockedBy →
      ∀ (j : Nat) (thj : Thread), t.threads[j]? = some thj → P thj.blockedBy := by
    intro i th th' hi htr hnew j thj hj
    rw [htr, threads_set hi] at hj
    split at hj
    · cases hj
      exact hnew
    · exact h j thj hj
  cases hmv with
  | same _ htr => exact htr ▸ h
  | yields hth _ hb htr => exact hset hth htr (hmay _ hb)
  | created hnew =>
    subst hnew
    intro j thj hj
    rcases newThread_thread hj with hj | rfl
    · exact h j thj hj
    · exact hnot
  | @ends th v hth htr => exact hset hth htr (h _ th hth)
  | suspended hth hnew =>
    subst hnew
    exact hset hth rfl (hssp _ _ rfl (h _ _ hth))
  | resumed hth hbl hnew =>
    subst hnew
    exact hset hth rfl (hrsm _ _ _ rfl (hbl ▸ h _ _ hth))
  | wakes hth _ _ htr => exact hset hth htr hnot

def waitsFor (s : Environment) (i : Nat) : ThreadBlock := (s.threads[i]?).elim .notBlocked (·.blockedBy.underlying)

theorem waitsFor_of (hi : s.threads[i]? = some th) : s.waitsFor i = th.blockedBy.underlying := by
  rw [waitsFor, hi]
  rfl

theorem waitsFor_set (hi : s.threads[i]? = some th) (htr : t.threads = s.threads.set i th') (j : Nat) :
    t.waitsFor j = if j = i then th'.blockedBy.underlying else s.waitsFor j := by
  rw [waitsFor, htr, threads_set hi]
  split <;> rfl

theorem waitsFor_rewrap (hi : s.threads[i]? = some th) (htr : t.threads = s.threads.set i th')
    (hbl : th'.blockedBy.underlying = th.blockedBy.underlying) : t.waitsFor = s.waitsFor := by
  funext j
  rw [waitsFor_set hi htr]
  split
  · rename_i hj
    rw [hj, waitsFor_of hi, hbl]
  · rfl

theorem elim_newThread {α : Type} {a : α} {f} (hf : f ⟨true, .notBlocked, none, .guest⟩ = a) (j : Nat) :
    (s.newThread.2.threads[j]?).elim a f = (s.threads[j]?).elim a f := by
  rw [newThread, List.getElem?_append]
  split
  · rfl
  · rename_i hj
    rw [List.getElem?_eq_none (Nat.le_of_not_lt hj)]
    cases hnew : [(⟨true, .notBlocked, none, .guest⟩ : Thread)][j - s.threads.length]? with
    | none => rfl
    | some thj =>
      rw [List.mem_singleton.mp (List.mem_of_getElem? hnew)]
      exact hf

theorem Yields.waitsFor_eq (h : Yields s₁ b rest t)
    (hb : b.underlying = b) (htr : s₁.threads = s.threads) (hcu : s₁.currentThread = s.currentThread) :
    s.waitsFor s.currentThread = .notBlocked ∧ ∀ j, t.waitsFor j = if j = s.currentThread then b else s.waitsFor j := by
  obtain ⟨th, hth, hru, hcr⟩ := h
  rw [htr, hcu] at hth
  have hset : t.threads = s₁.threads.set s₁.currentThread { th with blockedBy := b, hostContext := rest } :=
    threads_of_core hcr
  rw [htr, hcu] at hset
  refine ⟨by rw [waitsFor_of hth, hru]; rfl, fun j => ?_⟩
  rw [waitsFor_set hth hset]
  simp [hb]

theorem Woken.waitsFor_eq (h : Woken s i b s₁) (hth : s.threads[i]? = some th)
    (hcr : t.core = (s₁.executes i th).core) :
    ∀ j, t.waitsFor j = if j = i then .notBlocked else s.waitsFor j := by
  intro j
  have hset : t.threads = s₁.threads.set i { th with blockedBy := .notBlocked, hostContext := .guest } :=
    threads_of_core hcr
  rw [h.threads_eq.1] at hset
  rw [waitsFor_set hth hset]
  rfl

theorem ThreadBlock.underlying_suspend (b : ThreadBlock) : b.suspend.underlying = b.underlying := by
  cases b <;> rfl

theorem ThreadBlock.underlying_resume (count : Nat) (previous : ThreadBlock) :
    (if count = 0 then previous else .suspended count previous).underlying = previous.underlying := by
  split <;> rfl

/-- Calls that block no thread and are not the scheduler's leave alone what threads wait for. -/
theorem Moves.waitsFor_eq (hmv : Moves s t c) (hc : ∀ clocks, c ≠ .schedule clocks) :
    t.waitsFor = s.waitsFor ∨ ∃ b, c.mayBlock b ∧ s.waitsFor s.currentThread = .notBlocked ∧
      ∀ j, t.waitsFor j = if j = s.currentThread then b else s.waitsFor j := by
  cases hmv with
  | same _ htr =>
    left
    funext j
    rw [Environment.waitsFor, htr]
    rfl
  | @yields _ th b rest hth hru hmay htr =>
    refine .inr ⟨b, hmay, by rw [waitsFor_of hth, hru]; rfl, fun j => ?_⟩
    rw [waitsFor_set hth htr]
    simp [underlying_of_not_suspended hmay.unsuspended]
  | created hnew =>
    subst hnew
    exact .inl (funext (elim_newThread rfl))
  | ends hth htr => exact .inl (waitsFor_rewrap hth htr rfl)
  | suspended hth hnew =>
    subst hnew
    exact .inl (waitsFor_rewrap hth rfl (underlying_suspend _))
  | resumed hth hbl hnew =>
    subst hnew
    refine .inl (waitsFor_rewrap hth rfl ?_)
    rw [hbl]
    exact underlying_resume _ _
  | wakes => exact absurd rfl (hc _)

/-- The thread that executes is active and does not wait, and a thread that has ended does not wait either. -/
structure Live (s : Environment) : Prop where
  running : s.executing = true →
    ∃ th, s.threads[s.currentThread]? = some th ∧ th.active = true ∧ th.blockedBy.underlying = .notBlocked
  ended : ∀ (i : Nat) (th : Thread), s.threads[i]? = some th → th.active = false → th.blockedBy.underlying = .notBlocked

theorem Enabled.executing (h : s.Enabled c) (hc : ∀ clocks, c ≠ .schedule clocks) : s.executing = true := by
  cases c with
  | schedule clocks => exact absurd rfl (hc clocks)
  | _ => exact h

theorem Live.setBlock (h : Live s) (hi : s.threads[i]? = some th)
    (hb : b.underlying = th.blockedBy.underlying) : Live (s.setThread i { th with blockedBy := b }) where
  running := fun hec => by
    obtain ⟨thc, hthc, hac, hbl⟩ := h.running hec
    rw [setThread, threads_set hi]
    split
    · rename_i hic
      rw [hic, hi] at hthc
      cases hthc
      exact ⟨_, rfl, hac, hb.trans hbl⟩
    · exact ⟨thc, hthc, hac, hbl⟩
  ended := fun j thj hj hac => by
    rw [setThread, threads_set hi] at hj
    split at hj
    · cases hj
      exact hb.trans (h.ended i th hi hac)
    · exact h.ended j thj hj hac

theorem Live.stop (h : Live s) (hec : s.executing = true)
    (htr : t.threads = s.threads.set s.currentThread th') (hss : t.executing = false)
    (hed : ∀ th, s.threads[s.currentThread]? = some th → th.active = true → th.blockedBy.underlying = .notBlocked →
      th'.active = false → th'.blockedBy.underlying = .notBlocked) : Live t where
  running := fun hrun => by
    rw [hss] at hrun
    cases hrun
  ended := fun j thj hj hac => by
    obtain ⟨th, hth, hru, hbl⟩ := h.running hec
    rw [htr, threads_set hth] at hj
    split at hj
    · cases hj
      exact hed th hth hru hbl hac
    · exact h.ended j thj hj hac

theorem Live.newThread (h : Live s) : Live s.newThread.2 := by
  refine ⟨fun hec => ?_, fun j thj hj hac => ?_⟩
  · obtain ⟨th, hth, hac, hbl⟩ := h.running hec
    refine ⟨th, ?_, hac, hbl⟩
    rw [Environment.newThread, List.getElem?_append_left (List.getElem?_eq_some_iff.mp hth).1]
    exact hth
  · rcases newThread_thread hj with hj | rfl
    · exact h.ended j thj hj hac
    · cases hac

theorem Moves.live (hmv : Moves s t c) (heb : s.Enabled c) (h : Live s) : Live t := by
  cases hmv with
  | same _ htr hcu hec =>
    refine ⟨fun hrun => ?_, htr ▸ h.ended⟩
    rw [htr, hcu]
    exact h.running (hec ▸ hrun)
  | yields hth _ hmay htr hss =>
    refine h.stop (heb.executing hmay.not_schedule) htr hss fun th' hth' hac _ hed => ?_
    rw [hth] at hth'
    cases hth'
    rw [hac] at hed
    cases hed
  | created hnew =>
    subst hnew
    exact h.newThread
  | ends hth htr hss =>
    refine h.stop (heb.executing nofun) htr hss fun th' hth' _ hbl _ => ?_
    rw [hth] at hth'
    cases hth'
    exact hbl
  | suspended hth hnew =>
    subst hnew
    exact h.setBlock hth (underlying_suspend _)
  | resumed hth hbl hnew =>
    subst hnew
    refine h.setBlock hth ?_
    rw [hbl]
    exact underlying_resume _ _
  | wakes hth hac _ htr hcu =>
    refine ⟨fun _ => ?_, fun j thj hj hed => ?_⟩
    · rw [htr, hcu, threads_set hth, if_pos rfl]
      exact ⟨_, rfl, hac, rfl⟩
    · rw [htr, threads_set hth] at hj
      split at hj
      · cases hj
        rfl
      · exact h.ended j thj hj hed

theorem Live.start (mem : Nat → UInt8) (fileStreams : Nat → Option FileLock) : Live (start mem fileStreams) where
  running := fun _ => ⟨_, rfl, rfl, rfl⟩
  ended := fun i th hi hac => by
    obtain rfl : th = ⟨true, .notBlocked, none, .guest⟩ := by
      have hmem := List.mem_of_getElem? hi
      simpa [Environment.start] using hmem
    cases hac

theorem live_of_runs {mem} {fileStreams}
    (h : Runs call Enabled (start mem fileStreams) s) : Inv s ∧ Live s :=
  h.invariant (P := fun s => Inv s ∧ Live s) ⟨.start mem fileStreams, .start mem fileStreams⟩
    fun _ _ _ _ hs heb hcl =>
      ⟨hs.1.steps (hs.1.call_steps hcl), (hs.1.effect hcl).moves.live heb hs.2⟩

def Ended (s : Environment) (i : Nat) (v : Option Nat) : Prop :=
  ∃ th, s.threads[i]? = some th ∧ th.active = false ∧ th.returnValue = v

variable {v : Option Nat} (h : s.Ended i v)
include h

theorem Ended.set {j} (hth : s.threads[j]? = some th) (htr : t.threads = s.threads.set j th')
    (hac : th'.active = th.active) (hv : th'.returnValue = th.returnValue) : t.Ended i v := by
  obtain ⟨thi, hi, hed, hvi⟩ := h
  rw [Ended, htr, threads_set hth]
  split
  · rename_i heq
    rw [heq, hth] at hi
    cases hi
    exact ⟨th', rfl, hac.trans hed, hv.trans hvi⟩
  · exact ⟨thi, hi, hed, hvi⟩

theorem Ended.ne_current (hl : Live s) (hec : s.executing = true) : s.currentThread ≠ i := by
  rintro rfl
  obtain ⟨th, hth, hed, -⟩ := h
  obtain ⟨th', hth', hac, -⟩ := hl.running hec
  rw [hth] at hth'
  cases hth'
  rw [hac] at hed
  cases hed

theorem Ended.moves (hmv : Moves s t c) (heb : s.Enabled c) (hl : Live s) : t.Ended i v := by
  cases hmv with
  | same _ htr =>
    rw [Ended, htr]
    exact h
  | yields hth _ _ htr | wakes hth _ _ htr => exact h.set hth htr rfl rfl
  | suspended hth hnew | resumed hth _ hnew => exact h.set hth (congrArg threads hnew) rfl rfl
  | created hnew =>
    obtain ⟨th, hi, hed⟩ := h
    refine ⟨th, ?_, hed⟩
    rw [hnew, newThread, List.getElem?_append_left (List.getElem?_eq_some_iff.mp hi).1]
    exact hi
  | ends hth htr =>
    -- the thread that ends now was executing
    rw [Ended, htr, threads_set hth, if_neg (h.ne_current hl (heb.executing (by simp))).symm]
    exact h

/-- A thread that has ended never executes again, and the value that it returned stays. -/
theorem ended_of_runs {mem fileStreams} (hs : Runs call Enabled (start mem fileStreams) s) (ht : Runs call Enabled s t) :
    t.Ended i v ∧ (t.executing = true → t.currentThread ≠ i) := by
  obtain ⟨-, hl, he⟩ := ht.invariant (P := fun t => Inv t ∧ Live t ∧ t.Ended i v)
    ⟨(live_of_runs hs).1, (live_of_runs hs).2, h⟩ fun _ _ _ _ hp heb hcl =>
      ⟨hp.1.steps (hp.1.call_steps hcl), (hp.1.effect hcl).moves.live heb hp.2.1, hp.2.2.moves (hp.1.effect hcl).moves heb hp.2.1⟩
  exact ⟨he, he.ne_current hl⟩

end

/-- The first thread ends with 7, and the second goes on. -/
theorem ended_of_runs_first : ∃ s t : Environment, s.Ended 0 (some 7) ∧ t.executing = true ∧ t.Ended 0 (some 7) := by
  obtain ⟨s, t, hs, h, ht, hec⟩ : ∃ s t, Runs call Enabled (start (fun _ => 0) fun _ => none) s ∧ s.Ended 0 (some 7) ∧
      Runs call Enabled s t ∧ t.executing = true :=
    ⟨_, _, .exec [.newThread, .exitThread 7] .start rfl, ⟨_, rfl, rfl, rfl⟩,
      .exec [.schedule [⟨fun _ => 0, fun _ => 0⟩]] .start rfl, rfl⟩
  exact ⟨s, t, h, hec, (ended_of_runs h hs ht).1⟩

end TouchHLE.Environment
