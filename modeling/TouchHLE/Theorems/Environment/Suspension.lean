import TouchHLE.Theorems.Environment.Effects

/-! Suspending and resuming threads. A thread that is suspended while it waits or could execute goes nowhere until it is
    resumed. A thread that suspends itself executes on, and stops the emulator when it yields. -/

namespace TouchHLE.Environment
open Lib List Environment

def suspendCountOf (s : Environment) (i : Nat) : Nat := (s.threads[i]?).elim 0 (·.blockedBy.suspendCount)

/-- No thread suspends itself, and only threads that are suspended are resumed. -/
def Proper (s : Environment) (call : Call) : Prop := s.Enabled call ∧
    match call with
    | .suspendThread i => i ≠ s.currentThread
    | .resumeThread i => 0 < s.suspendCountOf i
    | _ => True

instance (s : Environment) (call : Call) : Decidable (s.Proper call) := by
  apply Call.casesOn (motive := fun call => Decidable (s.Proper call)) call <;> intros <;> exact instDecidableAnd

def Call.suspends (i : Nat) : Call → Bool
  | .suspendThread j => j == i
  | _ => false

def Call.resumes (i : Nat) : Call → Bool
  | .resumeThread j => j == i
  | _ => false

/-- Suspended threads have a positive count and one of the other blocks below it, and the thread that executes is not
    suspended. -/
structure Wrapped (s : Environment) : Prop where
  counted : ∀ (i : Nat) (th : Thread) (count : Nat) (previous : ThreadBlock), s.threads[i]? = some th →
    th.blockedBy = .suspended count previous → 0 < count ∧ previous.isSuspended = false
  executes : s.executing = true → s.suspendCountOf s.currentThread = 0

section
variable {s t : Environment} {i count : Nat} {th th' : Thread} {c : Call} {b previous : ThreadBlock}

theorem suspendCountOf_of (hi : s.threads[i]? = some th) : s.suspendCountOf i = th.blockedBy.suspendCount := by
  rw [suspendCountOf, hi]
  rfl

theorem suspendCountOf_set (hi : s.threads[i]? = some th) (htr : t.threads = s.threads.set i th') (j : Nat) :
    t.suspendCountOf j = if j = i then th'.blockedBy.suspendCount else s.suspendCountOf j := by
  rw [suspendCountOf, htr, threads_set hi]
  split <;> rfl

theorem ThreadBlock.suspend_eq
    (h : b.suspend = .suspended count previous) (hb : ∀ n p, b = .suspended n p → p.isSuspended = false) :
    0 < count ∧ previous.isSuspended = false := by
  cases b with
  | suspended n p =>
    cases h
    exact ⟨Nat.succ_pos n, hb n previous rfl⟩
  | _ =>
    cases h
    exact ⟨Nat.one_pos, rfl⟩

theorem ThreadBlock.suspend_of_not_suspended (h : b.isSuspended = false) : b.suspend = .suspended 1 b := by
  cases b with
  | suspended => cases h
  | _ => rfl

theorem ThreadBlock.not_suspended_eq {P : Prop}
    (hb : b.isSuspended = false) (h : b = .suspended count previous) : P := by
  subst h
  cases hb

theorem Moves.wrapped (hmv : Moves s t c) (hpp : s.Proper c) (h : Wrapped s) : Wrapped t := by
  have hcou := hmv.forall_blocks
    (P := fun b => ∀ count previous, b = .suspended count previous → 0 < count ∧ previous.isSuspended = false)
    (by rintro _ _ ⟨⟩) (fun b hmay _ _ => ThreadBlock.not_suspended_eq hmay.unsuspended)
    (fun _ b _ hb count previous hbl => ThreadBlock.suspend_eq hbl fun n p hp => (hb n p hp).2) (by
      intro _ count previous _ hb n p hnp
      have hpre := (hb _ _ rfl).2
      split at hnp
      · exact ThreadBlock.not_suspended_eq hpre hnp
      · rename_i hpos
        cases hnp
        exact ⟨Nat.pos_of_ne_zero hpos, hpre⟩)
    fun i th hi count previous => h.counted i th count previous hi
  refine ⟨fun i th count previous hi => hcou i th hi count previous, fun hrun => ?_⟩
  cases hmv with
  | same _ htr hcu hec =>
    rw [hcu, suspendCountOf, htr]
    exact h.executes (hec ▸ hrun)
  | yields _ _ _ _ hss | ends _ _ hss =>
    rw [hss] at hrun
    cases hrun
  | created hnew =>
    subst hnew
    rw [suspendCountOf, elim_newThread (a := 0) rfl]
    exact h.executes hrun
  | suspended hth hnew =>
    subst hnew
    rw [suspendCountOf_set hth rfl]
    exact (if_neg (Ne.symm hpp.2)).trans (h.executes hrun)
  | @resumed i count th previous hth hbl hnew =>
    subst hnew
    have hcn := h.executes hrun
    have hoh : s.currentThread ≠ i := by
      intro hcu
      rw [hcu, suspendCountOf_of hth, hbl] at hcn
      cases hcn
    rw [suspendCountOf_set hth rfl]
    exact (if_neg hoh).trans hcn
  | wakes hth _ _ htr hcu =>
    rw [hcu, suspendCountOf_set hth htr, if_pos rfl]
    rfl

def ThreadBlock.after (i count : Nat) (previous : ThreadBlock) : Call → ThreadBlock
  | .suspendThread j => if j = i then .suspended (count + 2) previous else .suspended (count + 1) previous
  | .resumeThread j =>
    if j = i then if count = 0 then previous else .suspended count previous else .suspended (count + 1) previous
  | _ => .suspended (count + 1) previous

theorem ThreadBlock.after_other (hc : ∀ j, c ≠ .suspendThread j ∧ c ≠ .resumeThread j) :
    ThreadBlock.after i count previous c = .suspended (count + 1) previous := by
  cases c with
  | suspendThread j => exact absurd rfl (hc j).1
  | resumeThread j => exact absurd rfl (hc j).2
  | _ => rfl

/-- Nothing but suspending and resuming it changes the block of a suspended thread. -/
theorem Moves.suspended_block (hmv : Moves s t c) (hi : s.threads[i]? = some th)
    (hbl : th.blockedBy = .suspended (count + 1) previous) :
    ∃ th', t.threads[i]? = some th' ∧ th'.blockedBy = .after i count previous c := by
  have hoh : ∀ {j thj th'}, s.threads[j]? = some thj → t.threads = s.threads.set j th' →
      (∀ j', c ≠ .suspendThread j' ∧ c ≠ .resumeThread j') → (thj = th → th'.blockedBy = thj.blockedBy) →
      ∃ th', t.threads[i]? = some th' ∧ th'.blockedBy = .after i count previous c := by
    intro j thj th' hj htr hc hsm
    rw [ThreadBlock.after_other hc, htr, threads_set hj]
    split
    · rename_i hij
      rw [hij, hj] at hi
      cases hi
      exact ⟨th', rfl, (hsm rfl).trans hbl⟩
    · exact ⟨th, hi, hbl⟩
  cases hmv with
  | same hc htr =>
    rw [ThreadBlock.after_other hc, htr]
    exact ⟨th, hi, hbl⟩
  | yields hth hru hmay htr =>
    refine hoh hth htr (fun j => ⟨?_, ?_⟩) fun heq => ?_
    · rintro rfl
      exact hmay
    · rintro rfl
      exact hmay
    · rw [heq, hbl] at hru
      cases hru
  | created hnew =>
    subst hnew
    refine ⟨th, ?_, hbl⟩
    rw [newThread, List.getElem?_append_left (List.getElem?_eq_some_iff.mp hi).1]
    exact hi
  | ends hth htr => exact hoh hth htr (fun _ => ⟨by rintro ⟨⟩, by rintro ⟨⟩⟩) fun _ => rfl
  | @suspended j thj hj hnew =>
    subst hnew
    rw [setThread, threads_set hj]
    by_cases hij : i = j
    · subst hij
      rw [hi] at hj
      cases hj
      rw [if_pos rfl, ThreadBlock.after, if_pos rfl]
      exact ⟨_, rfl, by simp [hbl, ThreadBlock.suspend]⟩
    · rw [if_neg hij, ThreadBlock.after, if_neg (Ne.symm hij)]
      exact ⟨th, hi, hbl⟩
  | @resumed j n thj p hj hblc hnew =>
    subst hnew
    rw [setThread, threads_set hj]
    by_cases hij : i = j
    · subst hij
      rw [hi] at hj
      cases hj
      rw [hbl] at hblc
      cases hblc
      rw [if_pos rfl, ThreadBlock.after, if_pos rfl]
      exact ⟨_, rfl, rfl⟩
    · rw [if_neg hij, ThreadBlock.after, if_neg (Ne.symm hij)]
      exact ⟨th, hi, hbl⟩
  | wakes hth _ hup htr =>
    refine hoh hth htr (fun _ => ⟨by rintro ⟨⟩, by rintro ⟨⟩⟩) fun heq => ?_
    rw [heq, hbl] at hup
    cases hup

def calls (_ : Environment) (c : Call) (_ : Result) (_ : Environment) : List Call := [c]

/-- The run has not resumed the thread more often than it has suspended it, at any time. -/
def StaysSuspended (i : Nat) (log : List Call) : Prop :=
  ∀ l, l <+: log → l.countP (Call.resumes i) ≤ l.countP (Call.suspends i)

theorem wrapped_of_runs {mem} {fileStreams}
    (h : Runs call Proper (start mem fileStreams) s) : Inv s ∧ Live s ∧ Wrapped s := by
  refine h.invariant (P := fun s => Inv s ∧ Live s ∧ Wrapped s) ⟨.start mem fileStreams, .start mem fileStreams, ?_⟩ ?_
  · refine ⟨fun i th count previous hi hbl => ?_, fun _ => rfl⟩
    obtain rfl : th = ⟨true, .notBlocked, none, .guest⟩ := by
      have hmem := mem_of_getElem? hi
      simpa [start] using hmem
    cases hbl
  · rintro s t c r ⟨hinv, hlv, hwrp⟩ hpp hcl
    have hmv := (hinv.effect hcl).moves
    exact ⟨hinv.steps (hinv.call_steps hcl), hmv.live hpp.1 hlv, hmv.wrapped hpp hwrp⟩

/-- While a thread stays suspended its block is kept, with the count. -/
theorem suspended_of_logs {log} (hinv : Inv s) (hi : s.threads[i]? = some th)
    (hbl : th.blockedBy = .suspended 1 previous) (h : Logs call Proper calls s log t) :
    Inv t ∧ (StaysSuspended i log → ∃ th', t.threads[i]? = some th' ∧
      th'.blockedBy = .suspended (log.countP (Call.suspends i) - log.countP (Call.resumes i) + 1) previous) := by
  refine h.invariant (P := fun log t => Inv t ∧ (StaysSuspended i log → ∃ th', t.threads[i]? = some th' ∧
    th'.blockedBy = .suspended (log.countP (Call.suspends i) - log.countP (Call.resumes i) + 1) previous))
    ⟨hinv, fun _ => ⟨th, hi, hbl⟩⟩ ?_
  rintro log s t c r ⟨hinv, hold⟩ - hcl
  refine ⟨hinv.steps (hinv.call_steps hcl), fun hsts => ?_⟩
  obtain ⟨th, hth, hbl⟩ := hold fun l hl => hsts l (hl.trans (prefix_append log [c]))
  obtain ⟨th', hth', haf⟩ := (hinv.effect hcl).moves.suspended_block hth hbl
  refine ⟨th', hth', haf.trans ?_⟩
  have hle := hsts log (prefix_append log [c])
  have hle' := hsts (log ++ [c]) (prefix_refl _)
  change _ = ThreadBlock.suspended ((log ++ [c]).countP (Call.suspends i) - (log ++ [c]).countP (Call.resumes i) + 1) previous
  rw [countP_append, countP_append] at hle' ⊢
  cases c with
  | suspendThread j =>
    by_cases hj : j = i
    · subst hj
      simp only [ThreadBlock.after, if_true, countP_singleton, Call.suspends, Call.resumes, beq_self_eq_true,
        Bool.false_eq_true, if_false]
      congr 1
      omega
    · simp [ThreadBlock.after, Call.suspends, Call.resumes, hj]
  | resumeThread j =>
    by_cases hj : j = i
    · subst hj
      simp only [countP_singleton, Call.suspends, Call.resumes, beq_self_eq_true, Bool.false_eq_true, if_false,
        if_true] at hle' ⊢
      simp only [ThreadBlock.after, if_true]
      rw [if_neg (by omega)]
      congr 1
      omega
    · simp [ThreadBlock.after, Call.suspends, Call.resumes, hj]
  | _ => rfl

structure Suspensions (s : Environment) : Prop where
  /-- A thread that is suspended does not execute. -/
  idle : ∀ i, 0 < s.suspendCountOf i → ¬(s.executing = true ∧ s.currentThread = i)
  /-- The scheduler finds no suspended thread with the count zero. -/
  counted : ∀ (i : Nat) (th : Thread) (count : Nat) (previous : ThreadBlock), s.threads[i]? = some th →
    th.blockedBy = .suspended count previous → 0 < count
  /-- From the first suspension to the last resumption the block is kept, and then restored. -/
  restored : ∀ i th r s₁, s.threads[i]? = some th →
    th.blockedBy.isSuspended = false → s.call (.suspendThread i) = .ok (r, s₁) →
    ∀ log t, Logs call Proper calls s₁ log t → StaysSuspended i log →
      (∃ th', t.threads[i]? = some th' ∧ th'.blockedBy =
        .suspended (log.countP (Call.suspends i) - log.countP (Call.resumes i) + 1) th.blockedBy) ∧
      (log.countP (Call.resumes i) = log.countP (Call.suspends i) → ∀ r' u,
        t.call (.resumeThread i) = .ok (r', u) → ∃ th', u.threads[i]? = some th' ∧ th'.blockedBy = th.blockedBy)
  suspend : ∀ i, i < s.threads.length → ∃ t, s.call (.suspendThread i) = .ok (.returned 0, t)
  resume : ∀ i, 0 < s.suspendCountOf i → ∃ t, s.call (.resumeThread i) = .ok (.returned 0, t)
  /-- The thread that executes can yield, and the one that is picked next can go on. -/
  yield : s.executing = true → ∀ b rest, ∃ t, s.yieldThread b rest = .ok t
  back : ∀ clocks i env e, s.scheduleNextThread clocks = .ok (some (i, env)) → env.switchThread i = .ok e →
    e.resumeContext ≠ .error .resumedBlocked

theorem suspendThread_total (hi : s.threads[i]? = some th) : ∃ t, s.call (.suspendThread i) = .ok (.returned 0, t) := by
  have htd : s.thread i = .ok th := by simp [thread, hi]
  cases hbl : th.blockedBy <;>
    simp only [call, suspendThread, htd, ok_bind, hbl] <;> exact ⟨_, rfl⟩

theorem resumeThread_total (hpos : 0 < s.suspendCountOf i) : ∃ t, s.call (.resumeThread i) = .ok (.returned 0, t) := by
  cases hi : s.threads[i]? with
  | none =>
    rw [suspendCountOf, hi] at hpos
    cases hpos
  | some th =>
    rw [suspendCountOf_of hi] at hpos
    have htd : s.thread i = .ok th := by simp [thread, hi]
    cases hbl : th.blockedBy with
    | suspended count previous =>
      rw [hbl] at hpos
      have hpos : count > 0 := hpos
      simp only [call, resumeThread, htd, ok_bind, hbl]
      split <;> exact ⟨_, rfl⟩
    | _ =>
      rw [hbl] at hpos
      cases hpos

theorem Picked.unblocked {env} (h : Picked s i env) : ∃ th, env.threads[i]? = some th ∧ th.blockedBy = .notBlocked := by
  cases h with
  | plain hp _ _ hth => exact ⟨_, picked_thread (hp.threads ▸ hth) _, rfl⟩
  | mutex hth | signalled hth | timedOut hth => exact ⟨_, picked_thread hth _, rfl⟩

theorem resumeContext_unblocked {th} (hth : s.threads[s.currentThread]? = some th) (hbl : th.blockedBy = .notBlocked) :
    Ends s.resumeContext (fun _ => True) (· ≠ .resumedBlocked) := by
  have hcd : ∀ cond, Ends (s.hostCond cond) (fun _ => True) (· ≠ .resumedBlocked) := by
    intro cond
    unfold hostCond
    split
    · exact nofun
    · exact trivial
  unfold resumeContext
  rw [thread_eq hth]
  refine .ite (fun hb => absurd hbl hb) fun _ => ?_
  split
  · exact trivial
  · exact trivial
  · exact trivial
  · exact (hcd _).bind fun _ _ => .ite (fun _ => nofun) fun _ => trivial
  · exact (hcd _).bind fun _ _ => .ite (fun _ => trivial) fun _ => trivial

/-- In every run in which no thread suspends itself and only suspended threads are resumed. -/
theorem suspensions_of_runs {mem : Nat → UInt8} {fileStreams : Nat → Option FileLock}
    (h : Runs call Proper (start mem fileStreams) s) : Suspensions s := by
  obtain ⟨hinv, hlive, hwrapped⟩ := wrapped_of_runs h
  exact {
    idle := fun i hpos hexec => by
      obtain ⟨hexec, rfl⟩ := hexec
      rw [hwrapped.executes hexec] at hpos
      cases hpos
    counted := fun i th count previous hi hblock => (hwrapped.counted i th count previous hi hblock).1
    restored := fun i th r s₁ hi hunsuspended hcall log t hlog hstays => by
      obtain ⟨th₀, hi₀, rfl⟩ := hinv.effect hcall
      obtain rfl : th = th₀ := Option.some_inj.mp (hi.symm.trans hi₀)
      have hi₁ : (s.setThread i { th with blockedBy := th.blockedBy.suspend }).threads[i]? =
          some { th with blockedBy := th.blockedBy.suspend } := by
        rw [setThread, threads_set hi, if_pos rfl]
      have hinv₁ := hinv.steps (hinv.call_steps hcall)
      obtain ⟨hinvt, hkept⟩ := suspended_of_logs hinv₁ hi₁ (ThreadBlock.suspend_of_not_suspended hunsuspended) hlog
      obtain ⟨th', hth', hblock'⟩ := hkept hstays
      refine ⟨⟨th', hth', hblock'⟩, fun heven r' u hresume => ?_⟩
      obtain ⟨th'', hth'', hafter⟩ := (hinvt.effect hresume).moves.suspended_block hth' hblock'
      rw [heven, Nat.sub_self, ThreadBlock.after, if_pos rfl, if_pos rfl] at hafter
      exact ⟨th'', hth'', hafter⟩
    suspend := fun i hi => suspendThread_total (getElem?_eq_getElem hi)
    resume := fun i hpos => resumeThread_total hpos
    yield := fun hexec b rest => by
      obtain ⟨th, hth, -, hblock⟩ := hlive.running hexec
      have hcount := hwrapped.executes hexec
      rw [suspendCountOf_of hth] at hcount
      have hruns : th.blockedBy = .notBlocked := by
        cases hb : th.blockedBy with
        | suspended count previous =>
          rw [hb] at hcount
          have hpos := (hwrapped.counted _ th count previous hth hb).1
          rw [show count = 0 from hcount] at hpos
          cases hpos
        | notBlocked => rfl
        | _ =>
          rw [hb] at hblock
          cases hblock
      have hthread : s.thread s.currentThread = .ok th := by simp [thread, hth]
      simp only [yieldThread, hthread, ok_bind, hruns, ne_eq, not_true_eq_false, if_false]
      exact ⟨_, rfl⟩
    back := fun clocks i env e hnext hswitch herror => by
      obtain ⟨clock, -, -, hpicked⟩ := (scheduleNextThread_ends s clocks).ok hnext i env rfl
      obtain ⟨th, hth, hblock⟩ := hpicked.unblocked
      obtain rfl := (switchThread_ends env i).ok hswitch
      exact (resumeContext_unblocked hth hblock).error herror rfl }

end

/-- Thread 1 is suspended twice and resumed once. -/
theorem suspensions_of_runs_twice : ∃ s, Runs call Proper (start staticMem fun _ => none) s ∧ s.suspendCountOf 1 = 1 ∧
    ¬(s.executing = true ∧ s.currentThread = 1) ∧ ∃ t, s.call (.resumeThread 1) = .ok (.returned 0, t) := by
  obtain ⟨s, hrun, hcount⟩ : ∃ s, Runs call Proper (start staticMem fun _ => none) s ∧ s.suspendCountOf 1 = 1 :=
    ⟨_, .exec [.newThread, .suspendThread 1, .suspendThread 1, .interrupt, .schedule [⟨id, id⟩], .resumeThread 1] .start rfl,
      rfl⟩
  have hpos : 0 < s.suspendCountOf 1 := by
    rw [hcount]
    exact Nat.one_pos
  exact ⟨s, hrun, hcount, (suspensions_of_runs hrun).idle 1 hpos, (suspensions_of_runs hrun).resume 1 hpos⟩

/-- A thread that suspends itself executes on, and the emulator stops when it yields; it also stops when a thread is
    resumed that is not suspended. -/
theorem suspends_itself :
    (∃ s, Runs call Enabled (start staticMem fun _ => none) s ∧ s.suspendCountOf 0 = 1 ∧ s.executing = true ∧
      s.currentThread = 0 ∧ s.call .interrupt = .error .yieldBlocked) ∧
    (start staticMem fun _ => none).call (.resumeThread 0) = .error .notSuspended :=
  ⟨⟨_, .exec [.suspendThread 0] .start rfl, rfl, rfl, rfl, rfl⟩, rfl⟩

end TouchHLE.Environment
