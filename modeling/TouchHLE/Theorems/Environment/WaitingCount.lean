import TouchHLE.Theorems.Environment.Schedule

/-! The waiting count of a mutex and the threads that are blocked on it. `relock_unblocked_mutex_for_thread` takes one off
    the count also for a thread that comes back from a condition variable, which has not been counted. -/

namespace TouchHLE.Environment
open Lib List Function

def blockedOn (s : Environment) (m : Nat) : Nat :=
  s.threads.countP fun th => decide (th.blockedBy.underlying = .mutex m)

/-- The mutex that a thread has given up for a wait on a condition variable, and takes back at the end of it. -/
def HostContext.givenUp : HostContext → Option Nat
  | .condWait _ m | .condTimedwait _ m => some m
  | _ => none

/-- No thread comes back from a condition variable while others are blocked on its mutex, and no mutex is destroyed
    that a thread has given up for a wait. -/
def Orderly (s : Environment) (call : Call) : Prop :=
  s.Enabled call ∧
    match call with
    | .schedule clocks => ∀ clock ∈ s.readings clocks, ∀ i ∈ s.firstReady clock, ∀ th ∈ s.threads[i]?,
      ∀ m ∈ th.hostContext.givenUp, s.blockedOn m = 0
    | .destroyMutex m => ∀ th ∈ s.threads, th.hostContext.givenUp ≠ some m
    | .pthreadMutexDestroy mutex => ∀ th ∈ s.threads, th.hostContext.givenUp ≠ some (s.registeredId mutex)
    | _ => True

instance (s : Environment) (call : Call) : Decidable (s.Orderly call) := by
  apply Call.casesOn (motive := fun call => Decidable (s.Orderly call)) call <;> intros <;> exact instDecidableAnd

structure Counted (s : Environment) : Prop where
  count : ∀ m x, s.mutexState.mutexes m = some x → x.waitingCount = s.blockedOn m
  wanted : ∀ th ∈ s.threads, ∀ m, th.blockedBy.underlying = .mutex m → (s.mutexState.mutexes m).isSome
  waited : ∀ th ∈ s.threads, ∀ m ∈ th.hostContext.givenUp, (s.mutexState.mutexes m).isSome

section
variable {s t : Environment} {i m : Nat} {th th' : Thread} {x y : Mutex}

theorem givenUp_waiting (c m : Nat) (d : Option Nat) : (HostContext.waiting c m d).givenUp = some m := by
  cases d <;> rfl

theorem blockedOn_congr (h : t.threads = s.threads) (k : Nat) : t.blockedOn k = s.blockedOn k := by
  unfold blockedOn
  rw [h]

theorem blockedOn_set (hi : s.threads[i]? = some th) (htr : t.threads = s.threads.set i th') (k : Nat) :
    t.blockedOn k + (if th.blockedBy.underlying = .mutex k then 1 else 0) =
      s.blockedOn k + (if th'.blockedBy.underlying = .mutex k then 1 else 0) := by
  obtain ⟨hlt, rfl⟩ := List.getElem?_eq_some_iff.mp hi
  have hle := List.boole_getElem_le_countP (p := fun th : Thread => decide (th.blockedBy.underlying = .mutex k)) hlt
  unfold blockedOn
  rw [htr, countP_set hlt]
  simp only [decide_eq_true_eq] at hle ⊢
  omega

theorem blockedOn_eq_zero {k : Nat} : s.blockedOn k = 0 ↔ ∀ th ∈ s.threads, th.blockedBy.underlying ≠ .mutex k := by
  simp [blockedOn, countP_eq_zero]

theorem isSome_setMutex {k : Nat} (h : (s.mutexState.mutexes k).isSome) :
    ((s.setMutex m y).mutexState.mutexes k).isSome := by
  rw [mutexes_setMutex_apply]
  split
  · rfl
  · exact h

/-! ### What keeps the counts right -/

theorem Counted.congr (h : Counted s) (htr : t.threads = s.threads)
    (hmt : t.mutexState.mutexes = s.mutexState.mutexes) : Counted t where
  count := fun k y hk => by
    rw [blockedOn_congr htr]
    exact h.count k y (hmt ▸ hk)
  wanted := by
    rw [htr, hmt]
    exact h.wanted
  waited := by
    rw [htr, hmt]
    exact h.waited

section
variable (h : Counted s) (hi : s.threads[i]? = some th) (htr : t.threads = s.threads.set i th')
include h hi htr

theorem Counted.setThread (hcn : ∀ k y, t.mutexState.mutexes k = some y → ∃ x, s.mutexState.mutexes k = some x ∧
      y.waitingCount + (if th.blockedBy.underlying = .mutex k then 1 else 0) =
        x.waitingCount + (if th'.blockedBy.underlying = .mutex k then 1 else 0))
    (hkp : ∀ k, (s.mutexState.mutexes k).isSome → (t.mutexState.mutexes k).isSome)
    (hwe : ∀ k, th'.blockedBy.underlying = .mutex k → (s.mutexState.mutexes k).isSome)
    (hwtd : ∀ k ∈ th'.hostContext.givenUp, (s.mutexState.mutexes k).isSome) : Counted t where
  count := fun k y hk => by
    obtain ⟨x, hx, heq⟩ := hcn k y hk
    have hset := blockedOn_set hi htr k
    have hold := h.count k x hx
    omega
  wanted := fun th₁ hmem k hbl => by
    rw [htr] at hmem
    rcases mem_or_eq_of_mem_set hmem with hmem | rfl
    · exact hkp k (h.wanted th₁ hmem k hbl)
    · exact hkp k (hwe k hbl)
  waited := fun th₁ hmem k hctx => by
    rw [htr] at hmem
    rcases mem_or_eq_of_mem_set hmem with hmem | rfl
    · exact hkp k (h.waited th₁ hmem k hctx)
    · exact hkp k (hwtd k hctx)

theorem Counted.rethread (hmt : t.mutexState.mutexes = s.mutexState.mutexes)
    (hbl : ∀ k, th'.blockedBy.underlying = .mutex k ↔ th.blockedBy.underlying = .mutex k)
    (hwtd : ∀ k ∈ th'.hostContext.givenUp, (s.mutexState.mutexes k).isSome) : Counted t := by
  refine h.setThread hi htr (fun k y hk => ⟨y, hmt ▸ hk, ?_⟩) (fun k hk => hmt ▸ hk) (fun k hk => ?_) hwtd
  · simp [hbl]
  · exact h.wanted th (mem_of_getElem? hi) k ((hbl k).mp hk)

end

theorem Counted.setMutex (h : Counted s) (hx : s.mutexState.mutexes m = some x) (hcn : y.waitingCount = x.waitingCount) :
    Counted (s.setMutex m y) := by
  refine ⟨fun k y' hk => ?_, fun th hmem k hbl => isSome_setMutex (h.wanted th hmem k hbl),
    fun th hmem k hctx => isSome_setMutex (h.waited th hmem k hctx)⟩
  rw [mutexes_setMutex_apply] at hk
  split at hk
  · rename_i hkm
    cases hk
    rw [hcn, hkm]
    exact h.count m x hx
  · exact h.count k y' hk

/-- One thread gets the mutex and is not blocked any more. The count must not have included others by mistake. -/
theorem Counted.wake (h : Counted s) (hi : s.threads[i]? = some th) (hx : s.mutexState.mutexes m = some x)
    (htr : t.threads = s.threads.set i { th with blockedBy := .notBlocked, hostContext := .guest })
    (hmt : ∀ k, t.mutexState.mutexes k =
      if k = m then some { x.heldBy i with waitingCount := x.waitingCount - 1 } else s.mutexState.mutexes k)
    (hoh : ∀ k, k ≠ m → th.blockedBy.underlying ≠ .mutex k)
    (hcn : th.blockedBy.underlying = .mutex m ∨ s.blockedOn m = 0) : Counted t := by
  refine h.setThread hi htr (fun k y hk => ?_) (fun k hk => ?_) nofun nofun
  · rw [hmt] at hk
    split at hk
    · rename_i hkm
      cases hk
      subst hkm
      refine ⟨x, hx, ?_⟩
      have hold := h.count k x hx
      rcases hcn with hbl | hzr
      · have hle : 0 < s.blockedOn k := Nat.pos_of_ne_zero fun hzr =>
          blockedOn_eq_zero.mp hzr th (mem_of_getElem? hi) hbl
        simp only [if_pos hbl, ThreadBlock.underlying, reduceCtorEq, if_false]
        omega
      · have hbl := blockedOn_eq_zero.mp hzr th (mem_of_getElem? hi)
        simp only [if_neg hbl, ThreadBlock.underlying, reduceCtorEq, if_false]
        omega
    · rename_i hkm
      refine ⟨y, hk, ?_⟩
      simp [if_neg (hoh k hkm), ThreadBlock.underlying]
  · rw [hmt]
    split
    · rfl
    · exact hk

theorem ThreadBlock.Plain.underlying_ne_mutex {b : ThreadBlock} (h : b.Plain) (k : Nat) : b.underlying ≠ .mutex k := by
  cases b with
  | suspended | mutex => exact h.elim
  | _ => exact nofun

theorem Counted.newThread (h : Counted s) : Counted s.newThread.2 := by
  have hnew : ∀ th ∈ s.newThread.2.threads, th ∈ s.threads ∨ th = ⟨true, .notBlocked, none, .guest⟩ := by
    intro th hmem
    simpa [Environment.newThread] using hmem
  refine ⟨fun k y hk => ?_, fun th hmem k hbl => ?_, fun th hmem k hctx => ?_⟩
  · rw [h.count k y hk]
    simp [blockedOn, Environment.newThread, ThreadBlock.underlying]
  · rcases hnew th hmem with hmem | rfl
    · exact h.wanted th hmem k hbl
    · cases hbl
  · rcases hnew th hmem with hmem | rfl
    · exact h.waited th hmem k hctx
    · cases hctx

theorem Counted.initMutex (hinv : Inv s) (h : Counted s) (type : MutexType) :
    Counted { s with mutexState :=
      { s.mutexState with mutexCount := s.mutexState.mutexCount + 1 }.insert s.mutexState.mutexCount ⟨type, 0, none⟩ } := by
  have hnew := hinv.fresh s.mutexState.mutexCount (Nat.le_refl _)
  have hkp : ∀ k, (s.mutexState.mutexes k).isSome →
      (update s.mutexState.mutexes s.mutexState.mutexCount (some ⟨type, 0, none⟩) k).isSome := by
    intro k hk
    rw [update_apply]
    split
    · rfl
    · exact hk
  refine ⟨fun k y hk => ?_, fun th hmem k hbl => hkp k (h.wanted th hmem k hbl),
    fun th hmem k hctx => hkp k (h.waited th hmem k hctx)⟩
  simp only [MutexState.insert, update_apply] at hk
  split at hk
  · rename_i hkm
    cases hk
    -- Nobody is blocked on a mutex that was not there.
    refine (blockedOn_eq_zero.mpr fun th hmem hbl => ?_).symm
    have hso := h.wanted th hmem k hbl
    rw [hkm, hnew] at hso
    cases hso
  · exact h.count k y hk

theorem Counted.destroyMutex (h : Counted s) (hx : s.mutexState.mutexes m = some x) (hzr : x.waitingCount = 0)
    (hwt : ∀ th ∈ s.threads, th.hostContext.givenUp ≠ some m) :
    Counted { s with mutexState := { s.mutexState with mutexes := update s.mutexState.mutexes m none } } := by
  have hkp : ∀ k, k ≠ m → (s.mutexState.mutexes k).isSome → (update s.mutexState.mutexes m none k).isSome := by
    intro k hkm hk
    rwa [update_of_ne hkm]
  refine ⟨fun k y hk => ?_, fun th hmem k hbl => ?_, fun th hmem k hctx => ?_⟩
  · simp only [update_apply] at hk
    split at hk
    · cases hk
    · exact h.count k y hk
  · refine hkp k ?_ (h.wanted th hmem k hbl)
    rintro rfl
    exact blockedOn_eq_zero.mp ((h.count k x hx).symm.trans hzr) th hmem hbl
  · refine hkp k ?_ (h.waited th hmem k hctx)
    rintro rfl
    exact hwt th hmem hctx

/-- The threads that come back from a condition variable find no thread blocked on its mutex; a mutex that is destroyed is
    not waited for. Then the counts stay right. -/
theorem Step.counted {e} (hst : Step s e t) (hinv : Inv s) (h : Counted s)
    (hrgn : ∀ i m, .regained i m ∈ e → s.blockedOn m = 0)
    (hdes : ∀ m, .destroyed m ∈ e → ∀ th ∈ s.threads, th.hostContext.givenUp ≠ some m) : Counted t := by
  cases hst with
  | memory | semaphores | files => exact h.congr rfl rfl
  | initMutex type => exact h.initMutex hinv type
  | destroyMutex hx _ hzr => exact h.destroyMutex hx hzr (hdes _ mem_cons_self)
  | lock hx | lockAgain hx | unlock hx | unlockOnce hx => exact h.setMutex hx rfl
  | @lockBlock m u x n th hx hlc hu hth hru =>
    refine h.setThread hth rfl (fun k y hk => ?_) (fun k hk => ?_) (fun k hk => ?_) (fun k hk => by cases hk)
    · have hk := (mutexes_setMutex_apply k).symm.trans hk
      simp only [hru, ThreadBlock.underlying, reduceCtorEq, if_false, ThreadBlock.mutex.injEq]
      split at hk
      · rename_i hkm
        cases hk
        subst hkm
        exact ⟨x, hx, by simp⟩
      · rename_i hkm
        exact ⟨y, hk, by simp [Ne.symm hkm]⟩
    · exact isSome_setMutex hk
    · cases hk
      simp [hx]
  | @block th b rest hth hru hpa hbc =>
    refine h.rethread hth rfl rfl (fun k => ?_) (fun k hctx => ?_)
    · rw [hru]
      exact iff_of_false (hpa.underlying_ne_mutex k) (ThreadBlock.plain_notBlocked.underlying_ne_mutex k)
    · rcases hbc with ⟨rfl, -⟩ | ⟨v, -, rfl⟩ <;> cases hctx
  | condInit | condDestroy => exact h.congr rfl rfl
  | @condBlock c m o d th hc hmx hkn hth hru =>
    refine h.rethread hth rfl rfl (fun k => ?_) (fun k hctx => ?_)
    · rw [hru]
      exact iff_of_false ThreadBlock.noConfusion (ThreadBlock.plain_notBlocked.underlying_ne_mutex k)
    · obtain ⟨x, hx⟩ := hkn
      obtain rfl : m = k := Option.some_inj.mp ((givenUp_waiting c m d).symm.trans hctx)
      simp [hx]
  | signal | broadcast => exact h.congr rfl rfl
  | newThread => exact h.newThread
  | exitThread hth =>
    exact h.rethread hth rfl rfl (fun k => .rfl) fun k hctx => h.waited _ (mem_of_getElem? hth) k hctx
  | wrap hth hsm =>
    refine h.rethread hth rfl rfl (fun k => ?_) fun k hctx => h.waited _ (mem_of_getElem? hth) k hctx
    rw [hsm]
  | wake hth _ hpa =>
    refine h.rethread hth rfl rfl (fun k => ?_) (fun k hk => by cases hk)
    exact iff_of_false (ThreadBlock.plain_notBlocked.underlying_ne_mutex k) (hpa.underlying_ne_mutex k)
  | @wakeMutex i m th x hth _ hbl hx hfr =>
    have hund : th.blockedBy.underlying = .mutex m := by
      rw [hbl]
      rfl
    refine h.wake hth hx rfl mutexes_setMutex_apply (fun k hkm hk => ?_) (.inl hund)
    rw [hund] at hk
    cases hk
    exact hkm rfl
  | wakeSignalled hth _ hbl hc hmx hfs hx hfr | wakeTimedOut hth _ hbl hc hmx hwk hx hfr =>
    refine h.wake hth hx rfl mutexes_setMutex_apply (fun k _ => ?_) (.inr (hrgn _ _ mem_cons_self))
    rw [hbl]
    exact ThreadBlock.noConfusion

def Event.ofLock : Event → Bool
  | .acquired _ _ | .released _ _ => true
  | .regained _ _ | .destroyed _ => false

theorem Counted.steps {es} (hinv : Inv s) (h : Counted s) (hse : Steps s es t)
    (hes : ∀ e ∈ es, e.ofLock = true) : Counted t := by
  induction hse with
  | refl => exact h
  | step hprv hst ih =>
    rw [forall_mem_append] at hes
    refine hst.counted (hinv.steps hprv) (ih hes.1) (fun i m hmem => ?_) (fun m hmem => ?_)
    · exact nomatch hes.2 _ hmem
    · exact nomatch hes.2 _ hmem

theorem events_ofLock {c} {r} (hsch : ∀ clocks, c ≠ .schedule clocks) (hd : ∀ m, c ≠ .destroyMutex m)
    (hpd : ∀ mutex, c ≠ .pthreadMutexDestroy mutex) : ∀ e ∈ events s c r t, e.ofLock = true := by
  unfold events
  split
  any_goals exact absurd rfl (hsch _)
  any_goals exact absurd rfl (hd _)
  any_goals exact absurd rfl (hpd _)
  any_goals
    split
    · exact forall_mem_singleton.mpr rfl
    · exact forall_mem_nil _
  · exact forall_mem_singleton.mpr rfl
  · exact forall_mem_singleton.mpr rfl
  · exact forall_mem_nil _

theorem Counted.schedule {clocks} {r} (hinv : Inv s) (h : Counted s)
    (hg : s.Orderly (.schedule clocks)) (hcl : s.schedule clocks = .ok (r, t)) : Counted t := by
  cases schedule_spec hinv hcl with
  | slept => exact h
  | resumed hck hfs _ hres =>
    cases hres with
    | guest hse | returning hse => exact h.steps hinv hse (forall_mem_nil _)
    | locked hst => exact h.steps hinv (.one hst) (forall_mem_singleton.mpr rfl)
    | @waited c m d v th o t hth hbl hc hm _ hst =>
      have hctx := (hinv.settled _ th hth).waits hbl hc hm
      have hzr : s.blockedOn m = 0 := by
        refine hg.2 _ hck _ hfs th hth m ?_
        rw [hctx]
        exact givenUp_waiting c m d
      refine hst.counted hinv h (fun i' m' hmem => ?_) (fun m' hmem => ?_)
      · rw [mem_singleton] at hmem
        cases hmem
        exact hzr
      · rw [mem_singleton] at hmem
        cases hmem

theorem Step.counted_of_destroyed (hst : Step s [.destroyed m] t) (hinv : Inv s) (h : Counted s)
    (hwt : ∀ th ∈ s.threads, th.hostContext.givenUp ≠ some m) : Counted t := by
  refine hst.counted hinv h (fun i' m' hmem => ?_) (fun m' hmem => ?_)
  · rw [mem_singleton] at hmem
    cases hmem
  · rw [mem_singleton] at hmem
    cases hmem
    exact hwt

theorem Counted.call {c} {r} (hinv : Inv s) (h : Counted s) (hg : s.Orderly c)
    (hcl : s.call c = .ok (r, t)) : Counted t := by
  cases c with
  | schedule clocks => exact h.schedule hinv hg hcl
  | destroyMutex m =>
    obtain ⟨⟨r, ms⟩, hd, hcl⟩ := bind_eq_ok.mp hcl
    cases hcl
    cases (destroyMutex_spec s m).ok hd with
    | destroyed hst => exact hst.counted_of_destroyed hinv h hg.2
    | refused => exact h
  | pthreadMutexDestroy mutex =>
    obtain ⟨⟨v, s₁⟩, hd, hcl⟩ := bind_eq_ok.mp hcl
    cases hcl
    cases (pthreadMutexDestroy_spec s mutex).ok hd with
    | destroyed hse hsm hst =>
      have hwt := hg.2
      simp only [← threads_of_core hsm] at hwt
      exact hst.counted_of_destroyed (hinv.steps hse) (h.steps hinv hse (forall_mem_nil _)) hwt
    | refused hse => exact h.steps hinv hse (forall_mem_nil _)
  | _ => exact h.steps hinv (hinv.call_steps hcl) (events_ofLock nofun nofun nofun)

theorem Counted.start (mem : Nat → UInt8) (fileStreams : Nat → Option FileLock) : Counted (start mem fileStreams) where
  count := fun _ _ h => nomatch h
  wanted := fun th hmem m hbl => by
    obtain rfl : th = ⟨true, .notBlocked, none, .guest⟩ := by simpa [Environment.start] using hmem
    cases hbl
  waited := fun th hmem m hctx => by
    obtain rfl : th = ⟨true, .notBlocked, none, .guest⟩ := by simpa [Environment.start] using hmem
    cases hctx

theorem counted_of_runs {mem} {fileStreams}
    (h : Runs call Orderly (start mem fileStreams) s) : Inv s ∧ Counted s :=
  h.invariant (P := fun s => Inv s ∧ Counted s) ⟨.start mem fileStreams, .start mem fileStreams⟩
    fun _ _ _ _ hs hg hcl => ⟨hs.1.steps (hs.1.call_steps hcl), hs.2.call hs.1 hg hcl⟩

theorem Counted.needs (h : Counted s) (hinv : Inv s) (hi : s.threads[i]? = some th) (hnds : Needs s th m) :
    s.mutexState.mutexes m ≠ none := by
  apply Option.isSome_iff_ne_none.mp
  have hmem := mem_of_getElem? hi
  rcases hnds with hbl | ⟨c, d, o, hbl, hc, hm⟩
  · refine h.wanted th hmem m ?_
    rw [hbl]
    rfl
  · refine h.waited th hmem m ?_
    rw [(hinv.settled i th hi).waits hbl hc hm]
    exact givenUp_waiting c m d

theorem Counted.schedule_ne_noMutex (h : Counted s) (hinv : Inv s) (clocks : List Clock) :
    s.schedule clocks ≠ .error .noMutex := by
  intro heo
  rcases schedule_error heo with ⟨clock, -, hss⟩ | hoh
  · cases hss with
    | candidate _ hss =>
      cases hss with
      | noMutex hth hnds hab => exact h.needs hinv hth hnds hab
      | timeout _ _ _ _ _ _ _ hrsn => simp at hrsn
      | other hoh => cases hoh
    | deadlocked hpn => cases hpn
  · cases hoh

theorem Counted.destroyed (h : Counted s) (hst : Step s [.destroyed m] t) : s.blockedOn m = 0 := by
  cases hst with
  | destroyMutex hx _ hzr => exact (h.count m _ hx).symm.trans hzr

/-- In every run that is orderly, the waiting count of a mutex is the number of threads that are blocked on it, a mutex
    can be destroyed only when no thread is, and the scheduler finds each mutex that it looks up. -/
theorem waiting_count_of_runs {mem : Nat → UInt8} {fileStreams : Nat → Option FileLock}
    (h : Runs call Orderly (start mem fileStreams) s) :
    (∀ m x, s.mutexState.mutexes m = some x → x.waitingCount = s.blockedOn m) ∧
    (∀ m ms, s.mutexState.destroyMutex m = .ok (.ok (), ms) → s.blockedOn m = 0) ∧
    (∀ mutex t, s.pthreadMutexDestroy mutex = .ok (0, t) → s.blockedOn (s.registeredId mutex) = 0) ∧
    (∀ (i : Nat) th m, s.threads[i]? = some th → Needs s th m → s.mutexState.mutexes m ≠ none) ∧
    ∀ clocks, s.schedule clocks ≠ .error .noMutex := by
  obtain ⟨hinv, hcounted⟩ := counted_of_runs h
  refine ⟨hcounted.count, fun m ms hd => ?_, fun mutex t hd => ?_, fun i th m hi => hcounted.needs hinv hi,
    hcounted.schedule_ne_noMutex hinv⟩
  · cases (destroyMutex_spec s m).ok hd with
    | destroyed hstep => exact hcounted.destroyed hstep
  · cases (pthreadMutexDestroy_spec s mutex).ok hd with
    | destroyed hsteps hsame hstep =>
      rw [← blockedOn_congr (threads_of_core hsame)]
      exact (hcounted.steps hinv hsteps (forall_mem_nil _)).destroyed hstep
    | refused _ herror => exact absurd rfl herror

end

/-- Thread 1 comes back from the condition variable before thread 2 is blocked on its mutex. -/
theorem waiting_count_of_runs_orderly : ∃ s x, Runs call Orderly (start staticMem fun _ => none) s ∧
    s.mutexState.mutexes 0 = some x ∧ x.waitingCount = 1 := by
  obtain ⟨s, x, hrun, hx, hblocked⟩ : ∃ s x, Runs call Orderly (start staticMem fun _ => none) s ∧
      s.mutexState.mutexes 0 = some x ∧ s.blockedOn 0 = 1 :=
    ⟨_, _, .exec [.newThread, .newThread, .interrupt, .schedule [⟨id, id⟩], .pthreadMutexLock 16, .pthreadCondWait 64 16,
      .schedule [⟨id, id⟩], .pthreadCondSignal 64, .interrupt, .schedule [⟨id, id⟩], .interrupt, .schedule [⟨id, id⟩],
      .interrupt, .schedule [⟨id, id⟩], .pthreadMutexLock 16] .start rfl, rfl, rfl⟩
  exact ⟨s, x, hrun, hx, ((waiting_count_of_runs hrun).1 0 x hx).trans hblocked⟩

/-- Thread 1 waits on the condition variable; thread 0 takes the mutex and signals; thread 2 is blocked on the mutex;
    thread 0 gives it up, and thread 1 comes back first. -/
def drift : List Call :=
  [.newThread, .newThread, .interrupt, .schedule [⟨id, id⟩],
   .pthreadMutexLock 16, .pthreadCondWait 64 16, .schedule [⟨id, id⟩],
   .interrupt, .schedule [⟨id, id⟩],
   .pthreadMutexLock 16, .pthreadCondSignal 64, .interrupt, .schedule [⟨id, id⟩],
   .pthreadMutexLock 16, .schedule [⟨id, id⟩],
   .pthreadMutexUnlock 16, .interrupt, .schedule [⟨id, id⟩]]

/-- After `drift` the count is 0, and thread 2 is blocked on the mutex. When thread 1 has unlocked it, it can be
    destroyed, and then the scheduler looks it up for thread 2. -/
theorem waiting_count_drifts :
    (∃ s, Runs call Enabled (start staticMem fun _ => none) s ∧
      (∃ x, s.mutexState.mutexes 0 = some x ∧ x.waitingCount = 0) ∧ s.blockedOn 0 = 1) ∧
    (∃ s, Runs call Enabled (start staticMem fun _ => none) s ∧
      (∃ ms, s.mutexState.destroyMutex 0 = .ok (.ok (), ms)) ∧ s.blockedOn 0 = 1) ∧
    ∃ s, Runs call Enabled (start staticMem fun _ => none) s ∧ s.schedule [⟨id, id⟩] = .error .noMutex :=
  ⟨⟨_, .exec drift .start rfl, ⟨_, rfl, rfl⟩, rfl⟩,
   ⟨_, .exec (drift ++ [.pthreadMutexUnlock 16]) .start rfl, ⟨_, rfl⟩, rfl⟩,
   ⟨_, .exec (drift ++ [.pthreadMutexUnlock 16, .pthreadMutexDestroy 16, .interrupt]) .start rfl, rfl⟩⟩

/-- The guest structure is that of a mutex that is locked or waited for. -/
def Busy (s : Environment) (mutex : Nat) : Prop :=
  readLe s.mem mutex 4 = magicMutex ∧
    ∃ x, s.mutexState.mutexes (s.mutexIdAt mutex) = some x ∧ (x.locked ≠ none ∨ x.waitingCount ≠ 0)

/-- A mutex that is busy is not destroyed, and where `pthread_mutex_destroy` fails it leaves everything as it is. -/
structure SparesBusy (s : Environment) (mutex : Nat) : Prop where
  busy : s.Busy mutex → ∃ t, s.pthreadMutexDestroy mutex = .ok (EBUSY, t)
  unchanged : ∀ e t, s.pthreadMutexDestroy mutex = .ok (e, t) → e ≠ 0 → t.mem = s.mem ∧ t.mutexState = s.mutexState

theorem pthreadMutexDestroy_busy {s : Environment} {mutex : Nat} (hmp : mutex + 12 ≤ 2 ^ 32) (h : s.Busy mutex) :
    ∃ mem, s.pthreadMutexDestroy mutex = .ok (EBUSY, { s with mem }) ∧ readLe mem mutex 4 = 0 := by
  obtain ⟨hmgc, x, hx, hbsy⟩ := h
  have hcc : s.checkOrRegisterMutex mutex = .ok (.ok (), s) := by
    rw [checkOrRegisterMutex, memRead, if_pos (by omega), ok_bind, if_neg (by rw [hmgc]; decide), if_pos hmgc]
  have hid : s.readMutexId mutex = .ok (s.mutexIdAt mutex) := by
    rw [readMutexId, memRead, if_pos hmp]
    rfl
  have hds : s.mutexState.destroyMutex (s.mutexIdAt mutex) = .ok (.error EBUSY, s.mutexState) := by
    rw [MutexState.destroyMutex, get_eq_ok.mpr hx, ok_bind]
    by_cases hlc : x.locked.isSome
    · rw [if_pos hlc]
    · rw [if_neg hlc, if_pos (hbsy.resolve_left (by simpa using hlc))]
  have hzr := readLe_written s.mem mutex 12 (0 + 2 ^ 32 * 0xFFFFFFFFFFFFFFFF) 4 0 (by decide)
  refine ⟨_, ?_, hzr⟩
  rw [pthreadMutexDestroy, hcc, ok_bind]
  dsimp only
  rw [hid, ok_bind, writeMutexT, memWrite, if_pos hmp, ok_bind]
  dsimp only
  rw [hds]
  rfl

/-- What is registered is not locked, and nobody waits for it. -/
theorem checkOrRegisterMutex_cases (s : Environment) (mutex : Nat) : Ensures (s.checkOrRegisterMutex mutex) fun p =>
    p.2 = s ∧ (p.1 = .ok () → readLe s.mem mutex 4 = magicMutex) ∨
      p.1 = .ok () ∧ p.2.mutexState.mutexes (s.registeredId mutex) = some ⟨.normal, 0, none⟩ := by
  have hii : Ensures (s.mutexState.initMutex pthreadMutexDefault) fun p =>
      p.2.mutexes s.mutexState.mutexCount = some ⟨.normal, 0, none⟩ :=
    .ite (fun _ => Function.update_self ..) fun _ => trivial
  have hwre : Ensures (s.pthreadMutexInit mutex 0) fun p =>
      p.2.mutexState.mutexes s.mutexState.mutexCount = some ⟨.normal, 0, none⟩ := by
    refine hii.bind fun p hp => (memWrite_spec _ _ _ _).bind ?_
    rintro _ ⟨mem, rfl⟩
    exact hp
  refine (memRead_spec s mutex 4).bind ?_
  rintro _ rfl
  refine .ite (fun hstt => ?_) fun _ => .ite (fun hmgc => .inl ⟨rfl, fun _ => hmgc⟩) fun _ => .inl ⟨rfl, nofun⟩
  rw [registeredId, if_pos hstt]
  exact hwre.bind fun p hp => .inr ⟨rfl, hp⟩

/-- The structure of a mutex that is busy is overwritten, so this is so exactly for the other mutexes. -/
theorem sparesBusy_iff (s : Environment) (mutex : Nat) (hmapped : mutex + 12 ≤ 2 ^ 32) :
    s.SparesBusy mutex ↔ ¬s.Busy mutex := by
  constructor
  · rintro ⟨-, hunchanged⟩ hbusy
    obtain ⟨mem, hdestroy, hzero⟩ := pthreadMutexDestroy_busy hmapped hbusy
    obtain ⟨hmem, -⟩ := hunchanged _ _ hdestroy (by decide)
    rw [show mem = s.mem from hmem, hbusy.1] at hzero
    exact absurd hzero (by decide)
  · intro hbusy
    refine ⟨fun h => absurd h hbusy, fun e t h he => ?_⟩
    obtain ⟨⟨r, s₁⟩, hcheck, h⟩ := bind_eq_ok.mp h
    have hcases := (checkOrRegisterMutex_cases s mutex).ok hcheck
    cases r with
    | error e' =>
      cases h
      obtain ⟨rfl, -⟩ | ⟨hfalse, -⟩ := hcases
      · exact ⟨rfl, rfl⟩
      · cases hfalse
    | ok =>
      obtain ⟨m, hm, h⟩ := bind_eq_ok.mp h
      obtain ⟨s₂, hs₂, h⟩ := bind_eq_ok.mp h
      obtain ⟨⟨result, ms⟩, hdestroy, h⟩ := bind_eq_ok.mp h
      obtain ⟨mem, rfl⟩ := (memWrite_spec _ _ _ _).ok hs₂
      obtain rfl := (readMutexId_spec s₁ mutex).ok hm
      obtain ⟨x, hx, hresult⟩ := bind_eq_ok.mp hdestroy
      have hx := get_eq_ok.mp hx
      -- whatever the structure was, the mutex is free, and it is destroyed
      have hfree : x.locked = none ∧ x.waitingCount = 0 := by
        obtain ⟨rfl, hmagic⟩ | ⟨-, hnew⟩ := hcases
        · by_contra hnot
          exact hbusy ⟨hmagic rfl, x, hx, by rwa [Classical.not_and_iff_not_or_not] at hnot⟩
        · rw [← (checkOrRegisterMutex_id s mutex).ok hcheck rfl] at hnew
          cases hx.symm.trans hnew
          exact ⟨rfl, rfl⟩
      rw [if_neg (by simp [hfree.1]), if_neg (by simp [hfree.2])] at hresult
      cases hresult
      cases h
      exact absurd rfl he

/-- A mutex that nobody has used yet. -/
theorem sparesBusy_iff_static : (start staticMem fun _ => none).SparesBusy 16 :=
  (sparesBusy_iff (start staticMem fun _ => none) 16 (by decide)).mpr fun h => absurd h.1 (by decide)

/-- A mutex is locked; destroying it fails, and then unlocking it fails too. -/
theorem sparesBusy_fails : ∃ s t, Runs call Enabled (start staticMem fun _ => none) s ∧
    s.pthreadMutexDestroy 16 = .ok (EBUSY, t) ∧ ¬s.SparesBusy 16 ∧
    (∃ u, s.pthreadMutexUnlock 16 = .ok (0, u)) ∧ t.pthreadMutexUnlock 16 = .ok (EINVAL, t) := by
  obtain ⟨s, t, hrun, hdestroy, hmem, hunlocks⟩ : ∃ s t, Runs call Enabled (start staticMem fun _ => none) s ∧
      s.pthreadMutexDestroy 16 = .ok (EBUSY, t) ∧ t.mem 16 ≠ s.mem 16 ∧
      (∃ u, s.pthreadMutexUnlock 16 = .ok (0, u)) ∧ t.pthreadMutexUnlock 16 = .ok (EINVAL, t) :=
    ⟨_, _, .exec [.pthreadMutexLock 16] .start rfl, rfl, by decide, ⟨_, rfl⟩, rfl⟩
  exact ⟨s, t, hrun, hdestroy, fun h => hmem (by rw [(h.unchanged _ t hdestroy (by decide)).1]), hunlocks⟩

end TouchHLE.Environment
