import TouchHLE.Theorems.Environment.Effects
import TouchHLE.Theorems.Environment.WaitingCount

/-! Threads that only sleep and lock mutexes. The waiting counts are right, and the scheduler stops the emulator only when
    every thread waits for another one. -/

namespace TouchHLE.Environment
open Lib List
variable {b : ThreadBlock} {ms : MutexState}

def ThreadBlock.Simple : ThreadBlock → Prop
  | .notBlocked | .sleeping _ | .mutex _ => True
  | _ => False

def Call.Simple : Call → Prop
  | .initMutex _ | .destroyMutex _ | .lockMutex _ | .unlockMutex _ | .newThread | .exitThread _ | .sleep _ _ | .interrupt
  | .schedule _ => True
  | _ => False

structure Steady (s : Environment) : Prop where
  inv : Inv s
  live : Live s
  counted : Counted s
  simple : ∀ th ∈ s.threads, th.blockedBy.Simple

section
variable {s t : Environment} {c : Call} {r : Result} {i m : Nat} {th : Thread} {x : Mutex} {clock : Clock} {e : Panic}

theorem ThreadBlock.Simple.underlying_eq (h : b.Simple) : b.underlying = b := by
  cases b with
  | suspended => exact h.elim
  | _ => rfl

theorem Steady.thread (h : Steady s) (hi : s.threads[i]? = some th) : th.blockedBy.Simple :=
  h.simple th (mem_of_getElem? hi)

theorem Steady.givenUp (h : Steady s) (hth : th ∈ s.threads) : th.hostContext.givenUp = none := by
  obtain ⟨i, hi⟩ := mem_iff_getElem?.mp hth
  have hsd := h.inv.settled i th hi
  have hsmp := h.simple th hth
  rw [Settled, hsmp.underlying_eq] at hsd
  cases hbl : th.blockedBy with
  | notBlocked =>
    rw [hbl] at hsd
    rw [hsd]
    rfl
  | sleeping =>
    rw [hbl] at hsd
    obtain ⟨v, hv⟩ := hsd
    rw [hv]
    rfl
  | mutex m =>
    rw [hbl] at hsd
    rw [hsd]
    rfl
  | _ =>
    rw [hbl] at hsmp
    exact hsmp.elim

theorem Steady.orderly (h : Steady s) (hc : c.Simple) (heb : s.Enabled c) : s.Orderly c := by
  refine ⟨heb, ?_⟩
  cases c with
  | schedule clocks =>
    intro clock _ i _ th hth m hm
    rw [h.givenUp (mem_of_getElem? hth)] at hm
    cases hm
  | destroyMutex m =>
    intro th hth
    rw [h.givenUp hth]
    nofun
  | _ => trivial

theorem Call.Simple.mayBlock (hc : c.Simple) (hmay : c.mayBlock b) : b.Simple := by
  cases c with
  | lockMutex =>
    cases b with
    | mutex => trivial
    | _ => exact hmay.elim
  | sleep =>
    cases b with
    | sleeping => trivial
    | _ => exact hmay.elim
  | interrupt =>
    cases b with
    | notBlocked => trivial
    | _ => exact hmay.elim
  | initMutex | destroyMutex | unlockMutex | newThread | exitThread | schedule => exact hmay.elim
  | _ => exact hc.elim

theorem Moves.simple (hmv : Moves s t c) (hc : c.Simple) (h : ∀ th ∈ s.threads, th.blockedBy.Simple) :
    ∀ th ∈ t.threads, th.blockedBy.Simple := by
  intro th hth
  obtain ⟨i, hi⟩ := mem_iff_getElem?.mp hth
  refine hmv.forall_blocks trivial (fun b => hc.mayBlock) ?_ ?_ (fun i th hi => h th (mem_of_getElem? hi)) i th hi
  · rintro i b rfl
    exact hc.elim
  · rintro i count previous rfl
    exact hc.elim

theorem Steady.call (h : Steady s) (hc : c.Simple) (heb : s.Enabled c) (hcl : s.call c = .ok (r, t)) : Steady t := by
  have hmv := (h.inv.effect hcl).moves
  exact ⟨h.inv.steps (h.inv.call_steps hcl), hmv.live heb h.live,
    h.counted.call h.inv (h.orderly hc heb) hcl, hmv.simple hc h.simple⟩

theorem exists_of_waitsFor (hwt : s.waitsFor i = .mutex m) :
    ∃ th ∈ s.threads, s.threads[i]? = some th ∧ th.blockedBy.underlying = .mutex m := by
  cases hth : s.threads[i]? with
  | none =>
    rw [waitsFor, hth] at hwt
    cases hwt
  | some th =>
    rw [waitsFor_of hth] at hwt
    exact ⟨th, mem_of_getElem? hth, rfl, hwt⟩

theorem Steady.wanted (h : Steady s) (hwt : s.waitsFor i = .mutex m) :
    ∃ x, s.mutexState.mutexes m = some x ∧ x.waitingCount ≠ 0 := by
  obtain ⟨th, hth, -, hbl⟩ := exists_of_waitsFor hwt
  obtain ⟨x, hx⟩ := Option.isSome_iff_exists.mp (h.counted.wanted th hth m hbl)
  refine ⟨x, hx, fun hzr => ?_⟩
  rw [h.counted.count m x hx] at hzr
  exact blockedOn_eq_zero.mp hzr th hth hbl

/-! ### Locking and unlocking -/

theorem yieldThread_eq {rest} (hi : s.threads[s.currentThread]? = some th)
    (hru : th.blockedBy = .notBlocked) : s.yieldThread b rest = .ok (s.yielded th b rest) := by
  rw [yieldThread, thread_eq hi, ok_bind, if_neg fun hnot => hnot hru]
  rfl

section
variable {n : Mem.NonZeroU32}

section
variable (hx : s.mutexState.mutexes m = some x)
include hx

theorem lockMutex_free (hfr : x.locked = none) :
    s.lockMutex m = .ok (.returned (.ok 1), s.setMutex m (x.heldBy s.currentThread)) := by
  rw [lockMutex, get_eq_ok.mpr hx, ok_bind, hfr]
  rfl

section
variable (hrcr : x.type = .recursive) (hhl : x.locked = some (s.currentThread, n))
include hrcr hhl

theorem lockMutex_own (hmr : n.get + 1 < 2 ^ 32) : s.lockMutex m = .ok (.returned (.ok (n.get + 1)),
      s.setMutex m { x with locked := some (s.currentThread, ⟨n.get + 1, Nat.succ_pos _⟩) }) := by
  rw [lockMutex, get_eq_ok.mpr hx, ok_bind, hhl]
  simp only [hrcr, if_true, hmr]

theorem lockMutex_full (hfu : ¬n.get + 1 < 2 ^ 32) : s.lockMutex m = .error .lockCount := by
  rw [lockMutex, get_eq_ok.mpr hx, ok_bind, hhl]
  simp only [hrcr, if_true, hfu, if_false]

omit hrcr hhl in
theorem lockMutex_other {u : Nat} (hhl : x.locked = some (u, n))
    (hoh : u ≠ s.currentThread) (hi : s.threads[s.currentThread]? = some th) (hru : th.blockedBy = .notBlocked) :
    s.lockMutex m = .ok (.yielded,
      (s.setMutex m { x with waitingCount := x.waitingCount + 1 }).yielded th (.mutex m) (.lockMutex m)) := by
  obtain ⟨type, waitingCount, locked⟩ := x
  obtain rfl : locked = some (u, n) := hhl
  rw [lockMutex, get_eq_ok.mpr hx, ok_bind]
  simp only [hoh, if_false, yieldThread_eq (s := s.setMutex m _) hi hru, ok_bind]

omit hrcr hhl in
theorem unlockMutex_last (hhl : x.locked = some (s.currentThread, n))
    (honc : n.get = 1) : s.unlockMutex m = .ok (.ok 0, s.setMutex m { x with locked := none }) := by
  rw [unlockMutex, get_eq_ok.mpr hx, ok_bind, hhl]
  simp [honc]

theorem unlockMutex_more (hmr : 0 < n.get - 1) :
    s.unlockMutex m = .ok (.ok (n.get - 1), s.setMutex m { x with locked := some (s.currentThread, ⟨n.get - 1, hmr⟩) }) := by
  have honc : n.get ≠ 1 := by omega
  rw [unlockMutex, get_eq_ok.mpr hx, ok_bind, hhl]
  simp only [ne_eq, not_true_eq_false, false_and, if_false, honc, hrcr, dif_pos hmr]

end
end

theorem destroyMutex_unwanted (hx : ms.mutexes m = some x) (hfr : x.locked = none)
    (hzr : x.waitingCount = 0) :
    ms.destroyMutex m = .ok (.ok (), { ms with mutexes := Function.update ms.mutexes m none }) := by
  rw [MutexState.destroyMutex, get_eq_ok.mpr hx, ok_bind, hfr, if_neg (by simp), if_neg fun hnot => hnot hzr]

theorem destroyMutex_wanted (hx : ms.mutexes m = some x) (hfr : x.locked = none)
    (hwe : x.waitingCount ≠ 0) : ms.destroyMutex m = .ok (.error EBUSY, ms) := by
  rw [MutexState.destroyMutex, get_eq_ok.mpr hx, ok_bind, hfr, if_neg (by simp), if_pos hwe]

end

section
variable (h : Steady s) (hec : s.executing = true)
include h hec

theorem Steady.lockMutex {k} (hlo : s.lockMutex m = .ok (k, t)) : Steady t := by
  obtain ⟨v, hcl⟩ : ∃ v, s.call (.lockMutex m) = .ok (v, t) := by
    rw [Environment.call, hlo]
    cases k <;> exact ⟨_, rfl⟩
  exact h.call (c := .lockMutex m) trivial hec hcl

theorem Steady.unlockMutex {k} (huc : s.unlockMutex m = .ok (k, t)) : Steady t := by
  have hcl : s.call (.unlockMutex m) = .ok (.returned (errnoOr k), t) := by
    rw [Environment.call, huc]
    rfl
  exact h.call (c := .unlockMutex m) trivial hec hcl

theorem Steady.initMutex {type}
    (hii : s.mutexState.initMutex type = .ok (m, ms)) : Steady { s with mutexState := ms } := by
  have hcl : s.call (.initMutex type) = .ok (.created m, { s with mutexState := ms }) := by
    rw [Environment.call, hii]
    rfl
  exact h.call (c := .initMutex type) trivial hec hcl

theorem Steady.destroyMutex {k}
    (hds : s.mutexState.destroyMutex m = .ok (k, ms)) : Steady { s with mutexState := ms } := by
  have hcl : s.call (.destroyMutex m) = .ok (.returned (errnoOr k), { s with mutexState := ms }) := by
    rw [Environment.call, hds]
    rfl
  exact h.call (c := .destroyMutex m) trivial hec hcl

end

theorem Steady.mutex (h : Steady s) (hi : s.threads[i]? = some th) (hbl : th.blockedBy = .mutex m) :
    ∃ x, s.mutexState.mutexes m = some x := by
  have hso := h.counted.wanted th (mem_of_getElem? hi) m (by rw [hbl]; rfl)
  exact Option.isSome_iff_exists.mp hso

/-- The thread that goes on next: it was ready to, or it gets the mutex that it was blocked on. -/
inductive Picks (s : Environment) (i : Nat) (th : Thread) : Environment → Prop where
  | ready (awake : ∀ m, th.blockedBy ≠ .mutex m) : Picks s i th (s.setThread i { th with blockedBy := .notBlocked })
  | locked {m : Nat} {x : Mutex} (blocked : th.blockedBy = .mutex m) (present : s.mutexState.mutexes m = some x)
      (free : x.locked = none) :
      Picks s i th ((s.setThread i { th with blockedBy := .notBlocked }).setMutex m
        { x.heldBy i with waitingCount := x.waitingCount - 1 })

def CanGo (s : Environment) (i : Nat) (env : Environment) : Prop :=
  ∃ th, s.threads[i]? = some th ∧ th.active = true ∧ Picks s i th env

theorem Steady.examine_ends (h : Steady s) (hi : s.threads[i]? = some th) (clock : Clock) :
    Ends (s.examine clock i) (fun found => ∀ env, found = .scheduled env → CanGo s i env) fun _ => False := by
  have hsmp := h.thread hi
  rw [examine, thread_eq hi]
  refine .ite (fun _ _ hpss => by cases hpss) fun hac => ?_
  have hac : th.active = true := by simpa using hac
  obtain ⟨active, blockedBy, returnValue, ctx⟩ := th
  cases blockedBy with
  | notBlocked =>
    rintro _ ⟨⟩
    have hsm : s.setThread i ⟨active, .notBlocked, returnValue, ctx⟩ = s := by
      obtain ⟨hlt, hget⟩ := List.getElem?_eq_some_iff.mp hi
      rw [setThread, ← hget, List.set_getElem_self]
    refine ⟨_, hi, hac, ?_⟩
    have hry : Picks s i ⟨active, .notBlocked, returnValue, ctx⟩ (s.setThread i ⟨active, .notBlocked, returnValue, ctx⟩) :=
      .ready fun _ hbl => by cases hbl
    rwa [hsm] at hry
  | sleeping sleepingUntil =>
    refine .ite (fun _ => ?_) fun _ _ hpss => by cases hpss
    rw [unblock_eq hi]
    rintro _ ⟨⟩
    exact ⟨_, hi, hac, .ready fun _ hbl => by cases hbl⟩
  | mutex m =>
    obtain ⟨x, hx⟩ := h.mutex hi rfl
    refine .ite (fun hfr => ?_) fun _ _ hpss => by cases hpss
    rw [unblock_eq hi]
    refine (relock_ends (s.setThread i _) i m).andThen ?_ ?_
    · rintro _ (⟨hno, -⟩ | hlc)
      · cases hx.symm.trans hno
      · have hul : s.mutexState.mutexIsLocked m = false := by simpa using hfr
        exact ne_true_of_eq_false hul hlc
    · rintro _ ⟨x', hx', hul, rfl⟩ _ ⟨⟩
      exact ⟨_, hi, hac, .locked rfl hx' hul⟩
  | _ => exact hsmp.elim

theorem Steady.scan_ends (h : Steady s) {l} (hl : ∀ i ∈ l, i < s.threads.length) (next : Option Nat) :
    Ends (s.scan clock l next) (fun p => ∀ i env, p = .scheduled i env → CanGo s i env) (· = .deadlocked) := by
  induction l generalizing next with
  | nil =>
    cases next with
    | none => exact rfl
    | some _ => exact nofun
  | cons i l ih =>
    have hrs : ∀ i ∈ l, i < s.threads.length := fun j hj => hl j (mem_cons_of_mem i hj)
    refine (h.examine_ends (getElem?_eq_getElem (hl i mem_cons_self)) clock).andThen (fun _ => False.elim) ?_
    intro found hfd
    cases found with
    | scheduled env =>
      rintro _ _ ⟨⟩
      exact hfd env rfl
    | asleep | passed => exact ih hrs _

theorem Steady.scheduleNextThread_ends (h : Steady s) (clocks : List Clock) : Ends (s.scheduleNextThread clocks)
    (fun r => ∀ i env, r = some (i, env) → CanGo s i env) (· = .deadlocked) := by
  induction clocks with
  | nil => exact nofun
  | cons clock clocks ih =>
    have hcan : ∀ i ∈ s.candidates, i < s.threads.length := by
      intro i hi
      obtain ⟨j, hj, rfl⟩ := mem_map.mp hi
      exact Nat.mod_lt _ (Nat.zero_lt_of_lt (mem_range.mp hj))
    refine (h.scan_ends hcan none).bind fun pass hpas => ?_
    cases pass with
    | scheduled i env =>
      rintro _ _ ⟨⟩
      exact hpas i env rfl
    | sleep => exact ih

theorem Picks.threads {env} (hp : Picks s i th env) :
    env.threads = s.threads.set i { th with blockedBy := .notBlocked } := by
  cases hp <;> rfl

theorem Steady.goes (h : Steady s) {env} (hi : s.threads[i]? = some th) (hac : th.active = true)
    (hp : Picks s i th env) :
    ∃ e v t, env.switchThread i = .ok e ∧ e.thread i = .ok { th with blockedBy := .notBlocked } ∧
      e.resumeContext = .ok (v, t) ∧ t.mutexState = env.mutexState ∧ t.currentThread = i := by
  have henv : env.threads[i]? = some { th with blockedBy := .notBlocked } := by
    rw [hp.threads]
    exact picked_thread hi _
  have hswt : env.switchThread i = .ok { env with currentThread := i, executing := true } := by
    rw [switchThread, thread_eq henv, ok_bind, if_neg fun hnot => by rw [hac] at hnot; cases hnot.2]
  have htr : ({ env with currentThread := i, executing := true } : Environment).thread i =
      .ok { th with blockedBy := .notBlocked } := thread_eq henv
  have hwt := h.givenUp (mem_of_getElem? hi)
  refine ⟨{ env with currentThread := i, executing := true }, ?_⟩
  rw [resumeContext]
  rw [htr, ok_bind]
  cases hctx : th.hostContext with
  | condWait | condTimedwait =>
    rw [hctx] at hwt
    cases hwt
  | guest => exact ⟨none, _, hswt, rfl, rfl, rfl, rfl⟩
  | lockMutex => exact ⟨some 0, _, hswt, rfl, rfl, rfl, rfl⟩
  | returning v => exact ⟨some v, _, hswt, rfl, rfl, rfl, rfl⟩

theorem Steady.schedule_ends (h : Steady s) (clocks : List Clock) : Ends (s.call (.schedule clocks))
    (fun p => p = (.slept, s) ∨ ∃ i th v env, s.threads[i]? = some th ∧ p.1 = .resumed th.hostContext v ∧
      p.2.currentThread = i ∧ Picks s i th env ∧ p.2.mutexState = env.mutexState) (· = .deadlocked) := by
  refine (h.scheduleNextThread_ends clocks).bind fun next hnx => ?_
  rcases next with _ | ⟨i, env⟩
  · exact .inl rfl
  · obtain ⟨th, hi, hac, hp⟩ := hnx i env rfl
    obtain ⟨e, v, t', hswt, htr, hrsm, hmt, hcu⟩ := h.goes hi hac hp
    simp only [hswt, htr, hrsm, ok_bind]
    exact .inr ⟨i, th, v, env, hi, rfl, hcu, hp, hmt⟩

end
end TouchHLE.Environment
