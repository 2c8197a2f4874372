import TouchHLE.Theorems.Environment.Schedule

/-! Mutual exclusion. What threads have taken and released, over a whole run, adds up to what the mutexes record; a thread
    comes back from a lock or a wait only as the owner, and the scheduler never takes a mutex that is not free. -/

namespace TouchHLE.Environment
open Lib List Function Event Mutex

/-! ### What the threads have taken and released -/

def Event.gains (m : Nat) (threads : Nat → Bool) : Event → Bool
  | .acquired i m' | .regained i m' => decide (m' = m) && threads i
  | .released _ _ | .destroyed _ => false

def Event.loses (m : Nat) (threads : Nat → Bool) : Event → Bool
  | .released i m' => decide (m' = m) && threads i
  | .acquired _ _ | .regained _ _ | .destroyed _ => false

/-- How many times the mutex is held, by a thread among `threads`. -/
def Mutex.level (x : Mutex) (threads : Nat → Bool) : Nat :=
  match x.locked with
  | some (i, n) => if threads i then n.get else 0
  | none => 0

/-- The locks that have been taken are those that have been released and those that are held. For a mutex that checks who
    releases it this is so for each set of threads, and for the others for all threads together. -/
structure Balance (log : List Event) (s : Environment) : Prop where
  balanced : ∀ m x, s.mutexState.mutexes m = some x → ∀ threads, (x.type ≠ .normal ∨ ∀ i, threads i = true) →
      log.countP (gains m threads) = log.countP (loses m threads) + x.level threads
  /-- Only a recursive mutex is held more than once. -/
  single : ∀ m x, s.mutexState.mutexes m = some x → x.type ≠ .recursive → ∀ i n, x.locked = some (i, n) → n.get = 1
  unseen : ∀ m, s.mutexState.mutexCount ≤ m → ∀ threads,
    log.countP (gains m threads) = 0 ∧ log.countP (loses m threads) = 0

section
variable {s t : Environment} {log e : List Event} {m : Nat} {x y : Mutex}

theorem Balance.congr (h : Balance log s) (hms : t.mutexState = s.mutexState) : Balance (log ++ []) t := by
  rw [append_nil]
  exact ⟨hms ▸ h.balanced, hms ▸ h.single, hms ▸ h.unseen⟩

/-- One mutex changes, and the events are about it. -/
theorem Balance.setMutex (hinv : Inv s) (h : Balance log s) (hx : s.mutexState.mutexes m = some x)
    (hmt : ∀ k, t.mutexState.mutexes k = if k = m then some y else s.mutexState.mutexes k)
    (hcn : t.mutexState.mutexCount = s.mutexState.mutexCount) (hty : y.type = x.type)
    (hat : ∀ k threads, k ≠ m → e.countP (gains k threads) = 0 ∧ e.countP (loses k threads) = 0)
    (hll : ∀ threads, (x.type ≠ .normal ∨ ∀ i, threads i = true) →
      x.level threads + e.countP (gains m threads) = e.countP (loses m threads) + y.level threads)
    (hsng : x.type ≠ .recursive → ∀ i n, y.locked = some (i, n) → n.get = 1) : Balance (log ++ e) t := by
  refine ⟨fun k z hk threads hwho => ?_, fun k z hk => ?_, fun k hk threads => ?_⟩
  · rw [hmt] at hk
    rw [countP_append, countP_append]
    split at hk
    · rename_i hkm
      cases hk
      subst hkm
      have hold := h.balanced k x hx threads (hty ▸ hwho)
      have hnew := hll threads (hty ▸ hwho)
      omega
    · rename_i hkm
      have hold := h.balanced k z hk threads hwho
      obtain ⟨hgns, hlos⟩ := hat k threads hkm
      omega
  · rw [hmt] at hk
    split at hk
    · cases hk
      rw [hty]
      exact hsng
    · exact h.single k z hk
  · rw [hcn] at hk
    have hkm : k ≠ m := by
      rintro rfl
      have hno := hinv.fresh k hk
      rw [hx] at hno
      cases hno
    obtain ⟨hgns, hlos⟩ := h.unseen k hk threads
    obtain ⟨hgns', hlos'⟩ := hat k threads hkm
    rw [countP_append, countP_append, hgns, hlos, hgns', hlos']
    exact ⟨rfl, rfl⟩

theorem Balance.take {i : Nat} (hinv : Inv s) (h : Balance log s) (hx : s.mutexState.mutexes m = some x)
    (hfr : x.locked = none)
    (hmt : ∀ k, t.mutexState.mutexes k = if k = m then some y else s.mutexState.mutexes k)
    (hcn : t.mutexState.mutexCount = s.mutexState.mutexCount) (hty : y.type = x.type)
    (hlc : y.locked = some (i, ⟨1, Nat.one_pos⟩)) (he : e = [.acquired i m] ∨ e = [.regained i m]) :
    Balance (log ++ e) t := by
  refine h.setMutex hinv hx hmt hcn hty (fun k threads hkm => ?_) (fun threads _ => ?_) (fun _ j n hn => ?_)
  · rcases he with rfl | rfl <;> simp [gains, loses, Ne.symm hkm]
  · rcases he with rfl | rfl <;> simp [level, hfr, hlc, gains, loses, countP_cons]
  · rw [hlc] at hn
    cases hn
    rfl

theorem Balance.initMutex (h : Balance log s) (type : MutexType) :
    Balance (log ++ []) { s with mutexState :=
      { s.mutexState with mutexCount := s.mutexState.mutexCount + 1 }.insert s.mutexState.mutexCount ⟨type, 0, none⟩ } := by
  rw [append_nil]
  refine ⟨fun k z hk threads hwho => ?_, fun k z hk => ?_, fun k hk => h.unseen k (Nat.le_of_succ_le hk)⟩
  · simp only [MutexState.insert, update_apply] at hk
    split at hk
    · rename_i hkm
      cases hk
      obtain ⟨hgns, hlos⟩ := h.unseen k (Nat.le_of_eq hkm.symm) threads
      rw [hgns, hlos]
      rfl
    · exact h.balanced k z hk threads hwho
  · simp only [MutexState.insert, update_apply] at hk
    split at hk
    · cases hk
      intro _ i n hn
      cases hn
    · exact h.single k z hk

theorem Balance.destroyMutex (h : Balance log s) : Balance (log ++ [.destroyed m])
      { s with mutexState := { s.mutexState with mutexes := update s.mutexState.mutexes m none } } := by
  have hgns : ∀ k threads, (log ++ [destroyed m]).countP (gains k threads) = log.countP (gains k threads) :=
    fun k threads => by simp [gains]
  have hlos : ∀ k threads, (log ++ [destroyed m]).countP (loses k threads) = log.countP (loses k threads) :=
    fun k threads => by simp [loses]
  have hold : ∀ k z, update s.mutexState.mutexes m none k = some z → s.mutexState.mutexes k = some z := by
    intro k z hk
    rw [update_apply] at hk
    split at hk
    · cases hk
    · exact hk
  refine ⟨fun k z hk threads hwho => ?_, fun k z hk => h.single k z (hold k z hk), fun k hk threads => ?_⟩
  · rw [hgns, hlos]
    exact h.balanced k z (hold k z hk) threads hwho
  · rw [hgns, hlos]
    exact h.unseen k hk threads

theorem Step.balance (hst : Step s e t) (hinv : Inv s) (h : Balance log s) : Balance (log ++ e) t := by
  cases hst with
  | memory | semaphores | files => exact h.congr rfl
  | initMutex type => exact h.initMutex type
  | destroyMutex => exact h.destroyMutex
  | lock hx hfr => exact h.take hinv hx hfr mutexes_setMutex_apply rfl rfl rfl (.inl rfl)
  | @lockAgain m x n n' hx hrec hhl hmr =>
    refine h.setMutex hinv hx mutexes_setMutex_apply rfl rfl (fun k threads hkm => ?_) (fun threads _ => ?_)
      (fun hnot => absurd hrec hnot)
    · simp [gains, loses, Ne.symm hkm]
    · cases hin : threads s.currentThread with
      | false => simp [level, hhl, hin, gains, loses]
      | true => simp [level, hhl, hin, hmr, gains, loses]
  | @unlock m u x n hx hhl honc hown =>
    refine h.setMutex hinv hx mutexes_setMutex_apply rfl rfl (fun k threads hkm => ?_) (fun threads hwho => ?_)
      (fun _ _ _ => nofun)
    · simp [gains, loses, Ne.symm hkm]
    · -- Who releases a lock that is not its own does so for all threads together only.
      have hsm : threads u = threads s.currentThread := by
        rcases hown with rfl | hnor
        · rfl
        · have hall := hwho.resolve_left (fun hne => hne hnor)
          rw [hall, hall]
      simp [level, hhl, honc, hsm, gains, loses, countP_cons]
  | @unlockOnce m x n n' hx hrec hhl hlss =>
    refine h.setMutex hinv hx mutexes_setMutex_apply rfl rfl (fun k threads hkm => ?_) (fun threads _ => ?_)
      (fun hnot => absurd hrec hnot)
    · simp [gains, loses, Ne.symm hkm]
    · cases hin : threads s.currentThread with
      | false => simp [level, hhl, hin, gains, loses]
      | true =>
        simp only [level, hhl, hin, if_true, ← hlss]
        simp [gains, loses, hin, Nat.add_comm]
  | @lockBlock m u x n th hx hhl =>
    refine h.setMutex hinv hx mutexes_setMutex_apply rfl rfl (fun k threads _ => ?_) (fun threads _ => ?_)
      (fun hnot i n' hn => h.single m x hx hnot i n' hn)
    · simp
    · simp [level]
  | block | condInit | condDestroy | condBlock | signal | broadcast | newThread | exitThread | wrap | wake =>
    exact h.congr rfl
  | wakeMutex _ _ _ hx hfr => exact h.take hinv hx hfr mutexes_setMutex_apply rfl rfl rfl (.inl rfl)
  | wakeSignalled _ _ _ _ _ _ hx hfr | wakeTimedOut _ _ _ _ _ _ hx hfr =>
    exact h.take hinv hx hfr mutexes_setMutex_apply rfl rfl rfl (.inr rfl)

theorem Balance.steps {es} (hse : Steps s es t) (hinv : Inv s) (h : Balance log s) : Balance (log ++ es) t := by
  have hbt := hse.invariant (P := fun log s => Inv s ∧ Balance log s) ⟨hinv, h⟩
    fun log s e t hs hst => ⟨hst.inv hs.1, hst.balance hs.1 hs.2⟩
  exact hbt.2

theorem Balance.start (mem : Nat → UInt8) (fileStreams : Nat → Option FileLock) : Balance [] (start mem fileStreams) where
  balanced := fun _ _ h => nomatch h
  single := fun _ _ h => nomatch h
  unseen := fun _ _ _ => ⟨rfl, rfl⟩

theorem balance_of_logs {mem} {fileStreams}
    (h : Logs call Enabled events (start mem fileStreams) log s) : Inv s ∧ Balance log s :=
  h.invariant (P := fun log s => Inv s ∧ Balance log s) ⟨.start mem fileStreams, .start mem fileStreams⟩
    fun _ _ _ _ _ hs _ hcl =>
      have hse := hs.1.call_steps hcl
      ⟨hs.1.steps hse, .steps hse hs.1 hs.2⟩

def takes (log : List Event) (i m : Nat) : Nat := log.countP (gains m fun j => decide (j = i))

def releases (log : List Event) (i m : Nat) : Nat := log.countP (loses m fun j => decide (j = i))

/-- A thread that comes back from a lock or a wait, with its value: it owns the mutex, when its time is up as well. -/
def BackAsOwner (t : Environment) (v : Option Int) : HostContext → Prop
  | .lockMutex m | .condWait _ m => v = some 0 ∧ t.Owns t.currentThread m
  | .condTimedwait _ m => (v = some 0 ∨ v = some ETIMEDOUT) ∧ t.Owns t.currentThread m
  | .guest | .returning _ => True

/-- What mutual exclusion means in a state, after the locks and unlocks of `log`. -/
structure Exclusive (log : List Event) (s : Environment) : Prop where
  /-- A mutex has at most one owner. -/
  owner : ∀ m i j, s.Owns i m → s.Owns j m → i = j
  /-- A mutex that is not recursive has been taken as often as it was released, or once more: while it is held, nobody
      takes it. -/
  alternate : ∀ m x, s.mutexState.mutexes m = some x → x.type ≠ .recursive →
    log.countP (gains m fun _ => true) =
      log.countP (loses m fun _ => true) + if x.locked.isSome then 1 else 0
  /-- The level of a recursive mutex is what its owner has yet to unlock, and nobody else has to. -/
  level : ∀ m x, s.mutexState.mutexes m = some x → x.type ≠ .normal → ∀ i n, x.locked = some (i, n) →
    takes log i m = releases log i m + n.get ∧ ∀ j, j ≠ i → takes log j m = releases log j m
  /-- It is free exactly when every thread has unlocked it as often as it has locked it. -/
  free : ∀ m x, s.mutexState.mutexes m = some x → x.type ≠ .normal →
    (x.locked = none ↔ ∀ i, takes log i m = releases log i m)
  /-- Who comes back at once from a lock with success owns the mutex. -/
  lock : ∀ m t, s.call (.lockMutex m) = .ok (.returned 0, t) → t.Owns s.currentThread m
  pthreadLock : ∀ mutex t, s.call (.pthreadMutexLock mutex) = .ok (.returned 0, t) →
    t.Owns s.currentThread (t.mutexIdAt mutex)
  pthreadTrylock : ∀ mutex t, s.call (.pthreadMutexTrylock mutex) = .ok (.returned 0, t) →
    t.Owns s.currentThread (t.mutexIdAt mutex)
  /-- A wait on a condition variable does not come back at once, unless it fails. -/
  wait : ∀ cond mutex v t, s.call (.pthreadCondWait cond mutex) = .ok (.returned v, t) → v ≠ 0
  timedwait : ∀ cond mutex absTime v t, s.call (.pthreadCondTimedwait cond mutex absTime) = .ok (.returned v, t) →
    v ≠ 0 ∧ v ≠ ETIMEDOUT
  /-- Who comes back from a lock or a wait later owns the mutex, too. -/
  resumed : ∀ clocks ctx v t, s.call (.schedule clocks) = .ok (.resumed ctx v, t) → BackAsOwner t v ctx
  /-- Only the owner unlocks a mutex that is not a normal one. -/
  unlock : ∀ m x, s.mutexState.mutexes m = some x → x.type ≠ .normal → ¬s.Owns s.currentThread m →
    s.call (.unlockMutex m) = .ok (.returned EPERM, s) ∧
      ∀ mutex, s.checkOrRegisterMutex mutex = .ok (.ok (), s) → s.readMutexId mutex = .ok m →
        s.call (.pthreadMutexUnlock mutex) = .ok (.returned EPERM, s)
  /-- The scheduler, which alone uses `relock_unblocked_mutex_for_thread`, does so for free mutexes only. -/
  relock : ∀ clocks, s.call (.schedule clocks) ≠ .error .relockLocked

theorem Owns.unique {i j : Nat} (hi : s.Owns i m) (hj : s.Owns j m) : i = j := by
  obtain ⟨x, n, hx, hn⟩ := hi
  obtain ⟨x', n', hx', hn'⟩ := hj
  obtain rfl : x = x' := Option.some_inj.mp (hx.symm.trans hx')
  exact congrArg Prod.fst (Option.some_inj.mp (hn.symm.trans hn'))

theorem Balance.takes_eq (h : Balance log s) (hx : s.mutexState.mutexes m = some x) (hty : x.type ≠ .normal) (i : Nat) :
    takes log i m = releases log i m + x.level fun j => decide (j = i) :=
  h.balanced m x hx _ (.inl hty)

theorem unlockMutex_not_owner (hx : s.mutexState.mutexes m = some x) (hty : x.type ≠ .normal)
    (hown : ¬s.Owns s.currentThread m) : s.unlockMutex m = .ok (.error EPERM, s) := by
  unfold unlockMutex
  rw [get_eq_ok.mpr hx, ok_bind]
  cases hlc : x.locked with
  | none =>
    cases hknd : x.type with
    | normal => exact absurd hknd hty
    | errorcheck => rfl
    | recursive => rfl
  | some owner =>
    obtain ⟨u, n⟩ := owner
    have hu : u ≠ s.currentThread := by
      rintro rfl
      exact hown ⟨x, n, hx, hlc⟩
    exact if_pos ⟨hu, hty⟩

theorem PthreadLocked.owns {mutex : Nat} (h : PthreadLocked s mutex (.returned 0, t)) :
    t.Owns s.currentThread (t.mutexIdAt mutex) := by
  cases h with
  | locked _ hon => exact hon
  | refused _ heo => exact absurd rfl heo

theorem schedule_resumed {clocks} {ctx} {v} (hinv : Inv s)
    (h : s.schedule clocks = .ok (.resumed ctx v, t)) : BackAsOwner t v ctx := by
  cases schedule_spec hinv h with
  | resumed _ _ hgs hres =>
    obtain rfl := hgs.current
    cases hres with
    | guest | returning => exact trivial
    | locked hst => exact ⟨rfl, hst.acquired.1⟩
    | @waited c m d v th o t _ _ _ _ hvl hst =>
      cases d with
      | none =>
        rcases hvl with rfl | ⟨hau, -⟩
        · exact ⟨rfl, hst.regained⟩
        · cases hau
      | some d => exact ⟨hvl.imp (congrArg some) (fun hv => congrArg some hv.2), hst.regained⟩

/-- Mutual exclusion holds in every run, for all types of mutexes and every way of scheduling. -/
theorem exclusive_of_logs {mem : Nat → UInt8} {fileStreams : Nat → Option FileLock}
    (h : Logs call Enabled events (start mem fileStreams) log s) : Exclusive log s := by
  obtain ⟨hinv, hbal⟩ := balance_of_logs h
  have hlevel : ∀ m x, s.mutexState.mutexes m = some x → x.type ≠ .normal → ∀ i n, x.locked = some (i, n) →
      takes log i m = releases log i m + n.get ∧ ∀ j, j ≠ i → takes log j m = releases log j m := by
    intro m x hx htype i n hn
    refine ⟨?_, fun j hj => ?_⟩
    · simpa [level, hn] using hbal.takes_eq hx htype i
    · simpa [level, hn, Ne.symm hj] using hbal.takes_eq hx htype j
  exact {
    owner := fun m i j => Owns.unique
    alternate := fun m x hx htype => by
      rw [hbal.balanced m x hx _ (.inr fun _ => rfl)]
      cases hlocked : x.locked with
      | none => simp [level, hlocked]
      | some owner => simp [level, hlocked, hbal.single m x hx htype owner.1 owner.2 hlocked]
    level := hlevel
    free := fun m x hx htype => by
      constructor
      · intro hfree i
        simpa [level, hfree] using hbal.takes_eq hx htype i
      · intro heven
        cases hlocked : x.locked with
        | none => rfl
        | some owner =>
          have hpos := owner.2.pos
          have hmore := (hlevel m x hx htype owner.1 owner.2 hlocked).1
          have hsame := heven owner.1
          omega
    lock := fun m t hcall => by
      obtain ⟨⟨r, s₁⟩, hlock, hcall⟩ := bind_eq_ok.mp hcall
      cases (lockMutex_spec s m).ok hlock with
      | locked hstep =>
        cases hcall
        exact hstep.acquired.1
      | refused | blocked => cases hcall
    pthreadLock := fun mutex t hcall => by
      obtain ⟨⟨r, s₁⟩, hlock, hcall⟩ := bind_eq_ok.mp hcall
      cases r <;> cases hcall
      exact ((pthreadMutexLock_spec s mutex).ok hlock).owns
    pthreadTrylock := fun mutex t hcall => by
      obtain ⟨⟨r, s₁⟩, hlock, hcall⟩ := bind_eq_ok.mp hcall
      cases r <;> cases hcall
      exact ((pthreadMutexTrylock_spec s mutex).ok hlock).owns
    wait := fun cond mutex v t hcall => by
      obtain ⟨⟨r, s₁⟩, hwait, hcall⟩ := bind_eq_ok.mp hcall
      cases (condBlock_spec s cond mutex fun _ => rfl).ok hwait with
      | blocked => cases hcall
      | refused =>
        cases hcall
        decide
    timedwait := fun cond mutex absTime v t hcall => by
      obtain ⟨⟨r, s₁⟩, hwait, hcall⟩ := bind_eq_ok.mp hcall
      obtain ⟨d, hblocked⟩ := (pthreadCondTimedwait_spec s cond mutex absTime).ok hwait
      cases hblocked with
      | blocked => cases hcall
      | refused =>
        cases hcall
        decide
    resumed := fun clocks ctx v t hcall => schedule_resumed hinv hcall
    unlock := fun m x hx htype hown => by
      have hunlock := unlockMutex_not_owner hx htype hown
      refine ⟨?_, fun mutex hcheck hid => ?_⟩
      · rw [Environment.call, hunlock]
        rfl
      · simp only [Environment.call, pthreadMutexUnlock, hcheck, ok_bind, hid, hunlock]
        rfl
    relock := fun clocks herror => by
      rcases schedule_error herror with ⟨clock, -, hstops⟩ | hother
      · cases hstops with
        | candidate _ hstops =>
          cases hstops with
          | timeout _ _ _ _ _ _ _ hreason => simp at hreason
          | other hother => cases hother
        | deadlocked hpanic => cases hpanic
      · cases hother }

end

/-- Thread 0 has locked a recursive mutex twice and unlocked it once, and thread 1 executes. -/
theorem exclusive_of_logs_recursive : ∃ log s, Logs call Enabled events (start staticMem fun _ => none) log s ∧
    takes log 0 0 = releases log 0 0 + 1 ∧ s.call (.unlockMutex 0) = .ok (.returned EPERM, s) := by
  obtain ⟨s, x, hrun, hcurrent, hx, htype, hlocked⟩ : ∃ s x, Runs call Enabled (start staticMem fun _ => none) s ∧
      s.currentThread = 1 ∧ s.mutexState.mutexes 0 = some x ∧ x.type = .recursive ∧
      x.locked = some (0, ⟨1, Nat.one_pos⟩) :=
    ⟨_, _, .exec [.newThread, .initMutex .recursive, .lockMutex 0, .lockMutex 0, .unlockMutex 0, .interrupt,
      .schedule [⟨id, id⟩]] .start rfl, rfl, rfl, rfl, rfl⟩
  obtain ⟨log, hlog⟩ : ∃ log, Logs call Enabled events (start staticMem fun _ => none) log s := Logs.of_runs hrun
  have hexcl := exclusive_of_logs hlog
  have hne : x.type ≠ .normal := by
    rw [htype]
    exact nofun
  refine ⟨log, s, hlog, (hexcl.level 0 x hx hne 0 _ hlocked).1, (hexcl.unlock 0 x hx hne fun hown => ?_).1⟩
  rw [hcurrent] at hown
  exact absurd (hown.unique ⟨x, _, hx, hlocked⟩) (by decide)

end TouchHLE.Environment
