import TouchHLE.Theorems.Environment.Exclusion

/-! Waits with a deadline. When it has passed, the scheduler insists that the mutex is free and that no other thread is about
    to be woken, and stops the emulator otherwise; it also takes threads that wait for their deadline for deadlocked. -/

namespace TouchHLE.Environment
open Lib List Option

def timedWait (s : Environment) (i : Nat) : Option (Nat × Nat) :=
  match s.threads[i]? with
  | some ⟨true, .condition c (some d), _, _⟩ => some (c, d)
  | _ => none

/-- A wait of thread `i` on the condition variable can end: its mutex is there and free, and no other thread is to be
    woken first. -/
def wakeable (s : Environment) (c i : Nat) : Bool :=
  (s.conditionVariables c).any fun o => o.currMutex.any fun m => (s.mutexState.mutexes m).any fun x =>
    x.locked.isNone && (o.waking.isEmpty || decide (o.waking.head? = some i))

/-- Each thread that the scheduler looks at and whose deadline has passed can be woken; and if no thread is ready and
    none is asleep, none is in a timed wait. -/
def Timely (s : Environment) (clocks : List Clock) : Prop := ∀ clock ∈ s.readings clocks,
    (∀ i ∈ s.reached clock, ∀ w ∈ s.timedWait i, w.2 ≤ clock.system i → s.wakeable w.1 i = true) ∧
    (s.firstReady clock = none → (∀ i ∈ s.candidates, s.asleep i = false) → ∀ i ∈ s.candidates, s.timedWait i = none)

instance (s : Environment) (clocks : List Clock) : Decidable (s.Timely clocks) := by
  unfold Timely
  infer_instance

section
variable {s t : Environment} {i c d : Nat} {clock : Clock} {clocks : List Clock}

theorem timedWait_eq_some :
    s.timedWait i = some (c, d) ↔ ∃ th, s.threads[i]? = some th ∧ th.active = true ∧ th.blockedBy = .condition c (some d) := by
  unfold timedWait
  constructor
  · intro h
    split at h
    · rename_i hth
      cases h
      exact ⟨_, hth, rfl, rfl⟩
    · cases h
  · rintro ⟨⟨active, blockedBy, returnValue, ctx⟩, hth, rfl, rfl⟩
    rw [hth]

theorem wakeable_eq_true : s.wakeable c i = true ↔ ∃ o m x, s.conditionVariables c = some o ∧ o.currMutex = some m ∧
      s.mutexState.mutexes m = some x ∧ x.locked = none ∧ (o.waking = [] ∨ o.waking.head? = some i) := by
  simp only [wakeable, Option.any_eq_true, Bool.and_eq_true, Option.isNone_iff_eq_none, Bool.or_eq_true,
    List.isEmpty_iff, decide_eq_true_eq]
  constructor
  · rintro ⟨o, hc, m, hm, x, hx, hfr, hwk⟩
    exact ⟨o, m, x, hc, hm, hx, hfr, hwk⟩
  · rintro ⟨o, m, x, hc, hm, hx, hfr, hwk⟩
    exact ⟨o, hc, m, hm, x, hx, hfr, hwk⟩

theorem mem_candidates (hi : i < s.threads.length) : i ∈ s.candidates := by
  have hpos : 0 < s.threads.length := Nat.zero_lt_of_lt hi
  have hlt := Nat.mod_lt (s.currentThread + 1) hpos
  refine mem_map.mpr ⟨(i + (s.threads.length - (s.currentThread + 1) % s.threads.length)) % s.threads.length,
      mem_range.mpr (Nat.mod_lt _ hpos), ?_⟩
  have hdiv := Nat.div_add_mod (s.currentThread + 1) s.threads.length
  have hsum : s.currentThread + 1 + (i + (s.threads.length - (s.currentThread + 1) % s.threads.length)) =
      i + s.threads.length * ((s.currentThread + 1) / s.threads.length + 1) := by
    rw [Nat.mul_succ]
    omega
  rw [Nat.add_mod_mod, hsum, Nat.add_mul_mod_self_left, Nat.mod_eq_of_lt hi]

theorem unblock_relock_free {m : Nat} {th} {x} (hth : s.threads[i]? = some th)
    (hx : s.mutexState.mutexes m = some x) (hfr : x.locked = none) :
    ∃ env, (do let s₁ ← s.unblock i; let s₂ ← s₁.relockUnblockedMutexForThread i m; .ok (.scheduled s₂)) =
      (.ok (.scheduled env) : Except Panic Examined) := by
  have hget : (s.setThread i { th with blockedBy := .notBlocked }).mutexState.get m = .ok x := get_eq_ok.mpr hx
  simp only [unblock, thread, hth, ok_bind, relockUnblockedMutexForThread, hget, hfr, isSome_none,
    Bool.false_eq_true, if_false]
  split
  · exact ⟨_, rfl⟩
  · exact ⟨_, rfl⟩

theorem examine_wakeable (hinv : Inv s) (hwa : s.timedWait i = some (c, d)) (hdue : d ≤ clock.system i)
    (hwak : s.wakeable c i = true) : ∃ env, s.examine clock i = .ok (.scheduled env) := by
  obtain ⟨⟨active, blockedBy, returnValue, ctx⟩, hth, rfl, rfl⟩ := timedWait_eq_some.mp hwa
  obtain ⟨⟨waiting, waking, currMutex, timedOut⟩, m, x, hc, rfl, hx, hfr, hwk⟩ := wakeable_eq_true.mp hwak
  obtain rfl : timedOut = [] := hinv.timedOut c _ hc
  have hul : s.mutexState.mutexIsLocked m = false := by
    simp [MutexState.mutexIsLocked, hx, hfr]
  have htr : s.thread i = .ok ⟨true, .condition c (some d), returnValue, ctx⟩ := by
    simp [thread, hth]
  have hcd : s.hostCond c = .ok ⟨waiting, waking, some m, []⟩ := by
    simp [hostCond, hc]
  unfold examine examineCondition
  simp only [htr, ok_bind, Bool.not_true, Bool.false_eq_true, if_false, hcd, hul, Bool.not_false, Bool.and_true,
    decide_eq_true_eq]
  by_cases hfs : waking.head? = some i
  · rw [if_pos hfs]
    exact unblock_relock_free hth hx hfr
  · obtain rfl : waking = [] := hwk.resolve_right hfs
    rw [if_neg hfs, if_pos (by simpa using hdue), if_neg not_mem_nil, if_neg (not_not_intro rfl), if_neg ?_]
    · exact unblock_relock_free hth hx hfr
    · rw [Bool.not_eq_true]
      exact hul

theorem Timely.stops_ne {i : Nat} {e} (hinv : Inv s) (h : s.Timely clocks) (hck : clock ∈ s.readings clocks)
    (hi : i ∈ s.reached clock) (hss : Stops s clock i e) :
    e ≠ .timedOutTwice ∧ e ≠ .timeoutWaking ∧ e ≠ .timeoutLocked := by
  cases hss with
  | noMutex => exact ⟨nofun, nofun, nofun⟩
  | @timeout th c d m o e hth hac hbl hc hm hdue huwo hrsn =>
    have hwa : s.timedWait i = some (c, d) := timedWait_eq_some.mpr ⟨th, hth, hac, hbl⟩
    obtain ⟨o', m', x, hc', hm', hx, hfr, hwk⟩ := wakeable_eq_true.mp ((h clock hck).1 i hi (c, d) hwa hdue)
    obtain rfl : o = o' := some_inj.mp (hc.symm.trans hc')
    obtain rfl : m = m' := some_inj.mp (hm.symm.trans hm')
    have hul : s.mutexState.mutexIsLocked m = false := by
      simp [MutexState.mutexIsLocked, hx, hfr]
    have hem : o.waking = [] := hwk.resolve_right fun hfs => huwo ⟨hfs, hul⟩
    -- None of the three reasons is left.
    rcases hrsn with ⟨-, htm⟩ | ⟨-, hne⟩ | ⟨-, hlc⟩
    · rw [hinv.timedOut c o hc] at htm
      cases htm
    · exact absurd hem hne
    · rw [hul] at hlc
      cases hlc
  | other hoh =>
    refine ⟨?_, ?_, ?_⟩ <;>
    · rintro rfl
      cases hoh

theorem asleep_of_length_le (hi : s.threads.length ≤ i) : s.asleep i = false ∧ s.timedWait i = none := by
  have hno : s.threads[i]? = none := getElem?_eq_none hi
  simp [asleep, timedWait, hno]

theorem Timely.deadlocked (h : s.Timely clocks) (heo : s.schedule clocks = .error .deadlocked) (i : Nat) :
    s.asleep i = false ∧ s.timedWait i = none := by
  rcases Nat.lt_or_ge i s.threads.length with hi | hi
  · rcases schedule_error heo with ⟨clock, hck, hss⟩ | hoh
    · cases hss with
      | candidate _ hss =>
        cases hss with
        | timeout _ _ _ _ _ _ _ hrsn => simp at hrsn
        | other hoh => cases hoh
      | deadlocked _ hbk =>
        have hno : s.firstReady clock = none := find?_eq_none.mpr fun j hj => ne_true_of_eq_false (hbk j hj).1
        have haw := fun j hj => (hbk j hj).2
        exact ⟨haw i (mem_candidates hi), (h clock hck).2 hno haw i (mem_candidates hi)⟩
    · cases hoh
  · exact asleep_of_length_le hi

theorem schedule_timedWait {r} (hinv : Inv s) (hwa : s.timedWait i = some (c, d))
    (h : s.schedule clocks = .ok (r, t)) :
    t.threads[i]? = s.threads[i]? ∨ ∃ m v, r = .resumed (.condTimedwait c m) (some v) ∧ (v = 0 ∨ v = ETIMEDOUT) ∧
      t.currentThread = i ∧ t.Owns i m := by
  obtain ⟨th, hth, -, hbl⟩ := timedWait_eq_some.mp hwa
  cases schedule_spec hinv h with
  | slept => exact .inl rfl
  | @resumed clock j ctx v t hck hfs hgs hres =>
    by_cases hij : i = j
    · subst hij
      right
      obtain ⟨th', hth', hctx⟩ := hgs.context
      obtain rfl : th = th' := some_inj.mp (hth.symm.trans hth')
      have hsd := hinv.settled i th hth
      rw [Settled, hbl] at hsd
      obtain ⟨o, m, -, -, -, hctx'⟩ := hsd
      obtain rfl : .condTimedwait c m = ctx := hctx'.symm.trans hctx
      obtain ⟨hvl, hown⟩ := schedule_resumed hinv h
      rw [hgs.current] at hown
      rcases hvl with rfl | rfl
      · exact ⟨m, 0, rfl, .inl rfl, hgs.current, hown⟩
      · exact ⟨m, ETIMEDOUT, rfl, .inr rfl, hgs.current, hown⟩
    · exact .inl (hgs.others i hij)

/-- In every run, a call of the scheduler that is timely does not stop at a thread whose deadline has passed, and
    reports a deadlock only when no thread is asleep or in a timed wait. A thread in a timed wait is then still in it, or
    comes back as the owner of the mutex. -/
theorem timeouts_of_runs {mem : Nat → UInt8} {fileStreams : Nat → Option FileLock}
    (h : Runs call Enabled (start mem fileStreams) s) (htimely : s.Timely clocks) :
    (∀ clock ∈ s.readings clocks, ∀ i ∈ s.reached clock, ∀ c d, s.timedWait i = some (c, d) → d ≤ clock.system i →
      ∃ env, s.examine clock i = .ok (.scheduled env)) ∧
    (∀ e, s.schedule clocks = .error e → e ≠ .timedOutTwice ∧ e ≠ .timeoutWaking ∧ e ≠ .timeoutLocked) ∧
    (s.schedule clocks = .error .deadlocked → ∀ i, s.asleep i = false ∧ s.timedWait i = none) ∧
    ∀ i c d r t, s.timedWait i = some (c, d) → s.schedule clocks = .ok (r, t) →
      t.threads[i]? = s.threads[i]? ∨ ∃ m v, r = .resumed (.condTimedwait c m) (some v) ∧ (v = 0 ∨ v = ETIMEDOUT) ∧
        t.currentThread = i ∧ t.Owns i m := by
  have hinv := inv_of_runs h
  refine ⟨fun clock hclock i hi c d hwait hdue => ?_, fun e herror => ?_, htimely.deadlocked,
    fun i c d r t hwait => schedule_timedWait hinv hwait⟩
  · exact examine_wakeable hinv hwait hdue ((htimely clock hclock).1 i hi (c, d) hwait hdue)
  · rcases schedule_error herror with ⟨clock, hclock, hstops⟩ | hother
    · cases hstops with
      | candidate hi hstops => exact htimely.stops_ne hinv hclock hi hstops
      | deadlocked hpanic =>
        rw [hpanic]
        exact ⟨nofun, nofun, nofun⟩
    · refine ⟨?_, ?_, ?_⟩ <;>
      · rintro rfl
        cases hother

end

def early : Clock := ⟨fun _ => 0, fun _ => 0⟩
def late : Clock := ⟨fun _ => 9, fun _ => 9⟩

/-- Thread 1 waits with the deadline 5, the mutex is free and nobody has signalled. -/
theorem timeouts_of_runs_free : ∃ s, Runs call Enabled (start staticMem fun _ => none) s ∧ s.timedWait 1 = some (64, 5) ∧
    ∃ env, s.examine late 1 = .ok (.scheduled env) := by
  obtain ⟨s, hrun, hwait, htimely, hreached⟩ : ∃ s, Runs call Enabled (start staticMem fun _ => none) s ∧
      s.timedWait 1 = some (64, 5) ∧ s.Timely [late] ∧ 1 ∈ s.reached late :=
    ⟨_, .exec [.newThread, .interrupt, .schedule [early], .write 132 5, .pthreadMutexLock 16,
      .pthreadCondTimedwait 64 16 128, .schedule [early], .interrupt] .start rfl, rfl, by decide, by decide⟩
  exact ⟨s, hrun, hwait, (timeouts_of_runs hrun htimely).1 late mem_cons_self 1 hreached 64 5 hwait (by decide)⟩

/-- A deadline passes while another thread is about to be woken; it passes while the mutex is held; and a thread waits for
    its deadline when nothing else can execute. -/
theorem timeouts_stop :
    (∃ s, Runs call Enabled (start staticMem fun _ => none) s ∧ s.schedule [late] = .error .timeoutWaking) ∧
    (∃ s, Runs call Enabled (start staticMem fun _ => none) s ∧ s.schedule [late] = .error .timeoutLocked) ∧
    ∃ s, Runs call Enabled (start staticMem fun _ => none) s ∧ s.timedWait 0 = some (64, 5) ∧
      s.schedule [early] = .error .deadlocked :=
  ⟨⟨_, .exec [.newThread, .newThread, .interrupt, .schedule [early], .interrupt, .schedule [early],
      .pthreadMutexLock 16, .pthreadCondWait 64 16, .schedule [early], .interrupt, .schedule [early],
      .write 132 5, .pthreadMutexLock 16, .pthreadCondTimedwait 64 16 128, .schedule [early],
      .pthreadCondSignal 64, .interrupt] .start rfl, rfl⟩,
   ⟨_, .exec [.newThread, .interrupt, .schedule [early], .write 132 5, .pthreadMutexLock 16,
      .pthreadCondTimedwait 64 16 128, .schedule [early], .pthreadMutexLock 16, .interrupt] .start rfl, rfl⟩,
   ⟨_, .exec [.write 132 5, .pthreadMutexLock 16, .pthreadCondTimedwait 64 16 128] .start rfl, rfl, rfl⟩⟩

end TouchHLE.Environment
