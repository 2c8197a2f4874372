import TouchHLE.Theorems.Environment.Effects
import TouchHLE.Theorems.Environment.Timeouts

/-! Semaphores: the value is what it was initialised with, more what was posted and less what was taken. It is an `i32` and
    wraps, so this holds as long as no post is made at the largest value. -/

namespace TouchHLE.Environment
open Lib List Option Function

inductive SemEvent where
  | initialised (sem value : Nat)
  | destroyed (sem : Nat)
  | posted (sem : Nat)
  /-- A wait or a try of the thread has found a unit. -/
  | passed (sem thread : Nat)
  | waits (sem thread : Nat)
  /-- The scheduler has taken a unit for a thread that waits. -/
  | granted (sem thread : Nat)
deriving DecidableEq

def SemEvent.takes (sem : Nat) : SemEvent → Bool
  | .passed sem' _ | .granted sem' _ => sem' == sem
  | _ => false

def SemEvent.renews (sem : Nat) : SemEvent → Bool
  | .initialised sem' _ | .destroyed sem' => sem' == sem
  | _ => false

def grants (block : ThreadBlock) (thread : Nat) : List SemEvent :=
  match block with
  | .semaphore sem => [.granted sem thread]
  | _ => []

def semEvents (s : Environment) (call : Call) (r : Result) (t : Environment) : List SemEvent :=
  match call, r with
  | .semInit sem value, _ => if (s.openSemaphores sem).isSome then [] else [.initialised sem value]
  | .semDestroy sem, _ => if (s.openSemaphores sem).isSome then [.destroyed sem] else []
  | .semPost sem, .returned _ => [.posted sem]
  | .semWait sem, .returned _ => [.passed sem s.currentThread]
  | .semWait sem, .yielded => [.waits sem s.currentThread]
  | .semTrywait sem, .returned v => if v = 0 then [.passed sem s.currentThread] else []
  | .schedule _, .resumed _ _ => grants (s.waitsFor t.currentThread) t.currentThread
  | _, _ => []

/-- Semaphores are initialised with values that fit an `i32` and are not destroyed while a thread waits on them; and no
    post is made at the largest value. -/
def SemFits (s : Environment) (call : Call) : Prop := s.Enabled call ∧
    match call with
    | .semInit _ value => value < 2 ^ 31
    | .semDestroy sem => ∀ th ∈ s.threads, th.blockedBy.underlying ≠ .semaphore sem
    | .semPost sem => ∀ o ∈ s.openSemaphores sem, o.value < 2 ^ 31 - 1
    | _ => True

instance (s : Environment) (call : Call) : Decidable (s.SemFits call) := by
  apply Call.casesOn (motive := fun call => Decidable (s.SemFits call)) call <;> intros <;> exact instDecidableAnd

/-- The value is accounted for by what has happened since the semaphore was initialised. -/
def Accounts (log : List SemEvent) (sem : Nat) (value : Int) : Prop :=
  ∃ (before : List SemEvent) (initial : Nat) (after : List SemEvent), log = before ++ .initialised sem initial :: after ∧
    (∀ e ∈ after, e.renews sem = false) ∧ value = initial + after.count (.posted sem) - after.countP (SemEvent.takes sem)

inductive Sems (s t : Environment) : List SemEvent → Prop where
  | same (sems : t.openSemaphores = s.openSemaphores) : Sems s t []
  | initialised {sem value : Nat} (absent : s.openSemaphores sem = none)
      (sems : t.openSemaphores = update s.openSemaphores sem (some ⟨addI32 value 0, []⟩)) :
      Sems s t [.initialised sem value]
  | destroyed {sem : Nat} (sems : t.openSemaphores = update s.openSemaphores sem none) : Sems s t [.destroyed sem]
  | posted {sem : Nat} {o : SemaphoreHostObject} (present : s.openSemaphores sem = some o)
      (sems : t.openSemaphores = update s.openSemaphores sem (some { o with value := addI32 o.value 1 })) :
      Sems s t [.posted sem]
  | taken {sem : Nat} {o : SemaphoreHostObject} {waiting : List Nat} {e : SemEvent} (present : s.openSemaphores sem = some o)
      (positive : 0 < o.value) (event : ∃ i, e = .passed sem i ∨ e = .granted sem i)
      (sems : t.openSemaphores = update s.openSemaphores sem (some ⟨o.value - 1, waiting⟩)) : Sems s t [e]
  | waits {sem i : Nat} {o : SemaphoreHostObject} {waiting : List Nat} (present : s.openSemaphores sem = some o)
      (sems : t.openSemaphores = update s.openSemaphores sem (some { o with waiting })) : Sems s t [.waits sem i]

section
variable {s t : Environment} {call : Call} {r : Result} {sem i : Nat} {log es : List SemEvent} {value : Int}

theorem addI32_of_lt {a b : Int} (h0 : 0 ≤ a + b) (h : a + b < 2 ^ 31) : addI32 a b = a + b := by
  unfold addI32
  omega

theorem Accounts.append (h : Accounts log sem value) (es : List SemEvent) (hes : ∀ e ∈ es, e.renews sem = false) :
    Accounts (log ++ es) sem (value + es.count (.posted sem) - es.countP (SemEvent.takes sem)) := by
  obtain ⟨before, initial, after, rfl, haf, rfl⟩ := h
  refine ⟨before, initial, after ++ es, by simp, fun e he => ?_, ?_⟩
  · rcases mem_append.mp he with he | he
    · exact haf e he
    · exact hes e he
  · rw [count_append, countP_append]
    omega

def Sound (log : List SemEvent) (s : Environment) : Prop :=
  ∀ sem o, s.openSemaphores sem = some o → 0 ≤ o.value ∧ Accounts log sem o.value

theorem Sound.update {o'} {e} (h : Sound log s)
    (hsms : t.openSemaphores = update s.openSemaphores sem o')
    (hat : ∀ k, k ≠ sem → e.renews k = false ∧ e ≠ .posted k ∧ e.takes k = false)
    (hnew : ∀ o, o' = some o → 0 ≤ o.value ∧ Accounts (log ++ [e]) sem o.value) : Sound (log ++ [e]) t := by
  intro k o hk
  rw [hsms, update_apply] at hk
  split at hk
  · rename_i hks
    subst hks
    exact hnew o hk
  · rename_i hks
    obtain ⟨hrnw, hps, hts⟩ := hat k hks
    obtain ⟨hpos, hacc⟩ := h k o hk
    have happ := hacc.append [e] (by simpa using hrnw)
    rw [count_eq_zero.mpr (by simpa using hps.symm), countP_eq_zero.mpr (by simpa using hts)] at happ
    refine ⟨hpos, ?_⟩
    simpa using happ

theorem Sems.sound (hs : Sems s t es) (h : Sound log s) (hft : ∀ sem value, es = [.initialised sem value] → value < 2 ^ 31)
    (hpot : ∀ sem o, es = [.posted sem] → s.openSemaphores sem = some o → o.value < 2 ^ 31 - 1) : Sound (log ++ es) t := by
  cases hs with
  | same hsms =>
    rw [append_nil]
    unfold Sound
    rw [hsms]
    exact h
  | @initialised sem value hab hsms =>
    have hlt := hft sem value rfl
    have hvl : addI32 value 0 = value := by
      rw [addI32_of_lt] <;> omega
    refine h.update hsms (fun k hk => ⟨by simpa [SemEvent.renews] using hk.symm, nofun, rfl⟩) ?_
    intro o ho
    rw [hvl] at ho
    obtain rfl := some_inj.mp ho
    exact ⟨Int.natCast_nonneg value, log, value, [], rfl, by simp, by simp⟩
  | @destroyed sem hsms =>
    exact h.update hsms (fun k hk => ⟨by simpa [SemEvent.renews] using hk.symm, nofun, rfl⟩) nofun
  | @posted sem o hpe hsms =>
    have hlt := hpot sem o rfl hpe
    obtain ⟨hpos, hacc⟩ := h sem o hpe
    have hvl : addI32 o.value 1 = o.value + 1 := by
      rw [addI32_of_lt] <;> omega
    refine h.update hsms (fun k hk => ⟨rfl, by simpa using hk.symm, rfl⟩) ?_
    intro o' ho'
    rw [hvl] at ho'
    obtain rfl := some_inj.mp ho'
    exact ⟨by dsimp only; omega, by simpa [SemEvent.takes] using hacc.append [.posted sem] (by simp [SemEvent.renews])⟩
  | @taken sem o waiting e hpe hpov hevn hsms =>
    obtain ⟨hpos, hacc⟩ := h sem o hpe
    have htn : e.renews sem = false ∧ e ≠ .posted sem ∧ e.takes sem = true ∧
        ∀ k, k ≠ sem → e.renews k = false ∧ e ≠ .posted k ∧ e.takes k = false := by
      obtain ⟨i, rfl | rfl⟩ := hevn <;>
      · refine ⟨rfl, nofun, by simp [SemEvent.takes], fun k hk => ⟨rfl, nofun, by simpa [SemEvent.takes] using hk.symm⟩⟩
    obtain ⟨hrnw, hps, hts, hoh⟩ := htn
    refine h.update hsms hoh ?_
    rintro o' ⟨⟩
    have happ := hacc.append [e] (by simpa using hrnw)
    rw [count_eq_zero.mpr (by simpa using hps.symm), countP_singleton, if_pos hts] at happ
    refine ⟨by dsimp only; omega, ?_⟩
    simpa using happ
  | @waits sem i o waiting hpe hsms =>
    obtain ⟨hpos, hacc⟩ := h sem o hpe
    refine h.update hsms (fun k hk => ⟨rfl, nofun, rfl⟩) ?_
    rintro o' ⟨⟩
    exact ⟨hpos, by simpa [SemEvent.takes] using hacc.append [.waits sem i] (by simp [SemEvent.renews])⟩

theorem Yields.sems_eq {s₁} {b} {rest} (h : Yields s₁ b rest t) :
    t.openSemaphores = s₁.openSemaphores := by
  obtain ⟨th, -, -, hcr⟩ := h
  exact sems_of_core (s := s₁.yielded th b rest) hcr

theorem Woken.sems {b} {s₁} {th} (h : Woken s i b s₁)
    (hcr : t.core = (s₁.executes i th).core) : Sems s t (grants b i) := by
  have hsms := sems_of_core (s := s₁.executes i th) hcr
  cases h with
  | semaphore hpe hpos => exact .taken hpe hpos ⟨i, .inr rfl⟩ hsms
  | _ => exact .same hsms

theorem Effect.sems (h : Effect s r t call) : Sems s t (semEvents s call r t) := by
  cases call with
  | semInit sem value =>
    obtain ⟨-, rfl⟩ := h
    cases hsem : s.openSemaphores sem with
    | none =>
      simp only [semInit, semEvents, hsem, isSome_none, Bool.false_eq_true, if_false]
      exact .initialised hsem rfl
    | some o =>
      simp only [semInit, semEvents, hsem, isSome_some, if_true]
      exact .same rfl
  | semDestroy sem =>
    obtain rfl : t = (s.semDestroy sem).2 := h
    cases hsem : s.openSemaphores sem with
    | none =>
      simp only [semDestroy, semEvents, hsem, isSome_none, Bool.false_eq_true, if_false]
      exact .same rfl
    | some o =>
      simp only [semDestroy, semEvents, hsem, isSome_some, if_true]
      exact .destroyed rfl
  | semPost sem =>
    obtain ⟨o, hpe, rfl, rfl⟩ := h
    exact .posted hpe rfl
  | semWait sem =>
    obtain ⟨o, hpe, ⟨hpos, rfl, rfl⟩ | ⟨-, rfl, hyl⟩⟩ := h
    · exact .taken hpe hpos ⟨_, .inl rfl⟩ rfl
    · exact .waits hpe hyl.sems_eq
  | semTrywait sem =>
    obtain ⟨o, hpe, ⟨hpos, rfl, rfl⟩ | ⟨-, rfl, rfl⟩⟩ := h
    · exact .taken hpe hpos ⟨_, .inl rfl⟩ rfl
    · exact .same rfl
  | schedule clocks =>
    rcases h with ⟨rfl, rfl⟩ | ⟨clock, i, th, v, s₁, -, -, hth, -, rfl, hwo, hcr⟩
    · exact .same rfl
    · have hcu : t.currentThread = i := current_of_core hcr
      have hbl := ThreadBlock.underlying_of_not_suspended hwo.threads_eq.2
      change Sems s t (grants (s.waitsFor t.currentThread) t.currentThread)
      rw [hcu, waitsFor_of hth, hbl]
      exact hwo.sems hcr
  | _ => exact .same (h.frame.sems rfl)

/-- Each thread that waits has begun one more wait than it was granted units, and the others as many. -/
def Pending (log : List SemEvent) (s : Environment) : Prop :=
  ∀ i sem, log.count (.waits sem i) = log.count (.granted sem i) + if s.waitsFor i = .semaphore sem then 1 else 0

theorem Pending.append_other (h : Pending log s) (hes : ∀ e ∈ es, ∀ sem i, e ≠ .waits sem i ∧ e ≠ .granted sem i)
    (hsm : ∀ i sem, t.waitsFor i = .semaphore sem ↔ s.waitsFor i = .semaphore sem) : Pending (log ++ es) t := by
  intro i sem
  have hwt : es.count (.waits sem i) = 0 := count_eq_zero.mpr fun he => (hes _ he sem i).1 rfl
  have hgra : es.count (.granted sem i) = 0 := count_eq_zero.mpr fun he => (hes _ he sem i).2 rfl
  rw [count_append, count_append, hwt, hgra, if_congr (hsm i sem) rfl rfl]
  exact h i sem

theorem Pending.waits (h : Pending log s) (hru : s.waitsFor s.currentThread = .notBlocked)
    (hwt : ∀ j, t.waitsFor j = if j = s.currentThread then .semaphore sem else s.waitsFor j) :
    Pending (log ++ [.waits sem s.currentThread]) t := by
  intro i sem'
  have hold := h i sem'
  rw [count_append, count_append, hwt]
  by_cases hi : i = s.currentThread
  · subst hi
    rw [hru, if_neg nofun] at hold
    by_cases hsem : sem = sem'
    · subst hsem
      simp [hold]
    · simp [hold, hsem]
  · simp [hi, Ne.symm hi, hold]

theorem Pending.wakes (h : Pending log s) (hwks : ∀ j, t.waitsFor j = if j = i then .notBlocked else s.waitsFor j) :
    Pending (log ++ grants (s.waitsFor i) i) t := by
  intro j sem
  have hold := h j sem
  rw [count_append, count_append, hwks]
  cases hb : s.waitsFor i with
  | semaphore sem' =>
    by_cases hj : j = i
    · subst hj
      rw [hb] at hold
      by_cases hsem : sem' = sem
      · subst hsem
        simpa [grants] using hold
      · simpa [grants, hsem] using hold
    · simpa [grants, hj, Ne.symm hj] using hold
  | _ =>
    by_cases hj : j = i
    · subst hj
      rw [hb] at hold
      simpa [grants] using hold
    · simpa [grants, hj] using hold

def SemEvent.ComesFrom (call : Call) : SemEvent → Prop
  | .initialised sem value => call = .semInit sem value
  | .destroyed sem => call = .semDestroy sem
  | .posted sem => call = .semPost sem
  | .passed sem _ => call = .semWait sem ∨ call = .semTrywait sem
  | .waits sem _ => call = .semWait sem
  | .granted _ _ => ∃ clocks, call = .schedule clocks

theorem semEvents_comesFrom {e} (he : e ∈ semEvents s call r t) : e.ComesFrom call := by
  cases call with
  | semInit sem value =>
    simp only [semEvents] at he
    split at he
    · cases he
    · rw [mem_singleton.mp he]
      rfl
  | semDestroy sem =>
    simp only [semEvents] at he
    split at he
    · rw [mem_singleton.mp he]
      rfl
    · cases he
  | semPost sem =>
    cases r with
    | returned v =>
      rw [mem_singleton.mp he]
      rfl
    | _ => cases he
  | semWait sem =>
    cases r with
    | returned v =>
      rw [mem_singleton.mp he]
      exact .inl rfl
    | yielded =>
      rw [mem_singleton.mp he]
      rfl
    | _ => cases he
  | semTrywait sem =>
    cases r with
    | returned v =>
      simp only [semEvents] at he
      split at he
      · rw [mem_singleton.mp he]
        exact .inr rfl
      · cases he
    | _ => cases he
  | schedule clocks =>
    cases r with
    | resumed ctx v =>
      simp only [semEvents, grants] at he
      split at he
      · rw [mem_singleton.mp he]
        exact ⟨clocks, rfl⟩
      · cases he
    | _ => cases he
  | _ => cases he

theorem Effect.pending (h : Effect s r t call) (hpnd : Pending log s) : Pending (log ++ semEvents s call r t) t := by
  by_cases hwa : ∃ sem, call = .semWait sem
  · obtain ⟨sem, rfl⟩ := hwa
    obtain ⟨o, hpe, ⟨hpos, rfl, rfl⟩ | ⟨-, rfl, hyl⟩⟩ := h
    · exact hpnd.append_other (by simp [semEvents]) fun _ _ => .rfl
    · obtain ⟨hru, hwt⟩ := hyl.waitsFor_eq rfl rfl rfl
      exact hpnd.waits hru hwt
  by_cases hsch : ∃ clocks, call = .schedule clocks
  · obtain ⟨clocks, rfl⟩ := hsch
    rcases h with ⟨rfl, rfl⟩ | ⟨clock, i, th, v, s₁, -, -, hth, -, rfl, hwo, hcr⟩
    · exact hpnd.append_other (by simp [semEvents]) fun _ _ => .rfl
    · have hcu : t.currentThread = i := current_of_core hcr
      change Pending (log ++ grants (s.waitsFor t.currentThread) t.currentThread) t
      rw [hcu]
      exact hpnd.wakes (hwo.waitsFor_eq hth hcr)
  have hwa : ∀ sem, call ≠ .semWait sem := fun sem hc => hwa ⟨sem, hc⟩
  have hsch : ∀ clocks, call ≠ .schedule clocks := fun clocks hc => hsch ⟨clocks, hc⟩
  refine hpnd.append_other (fun e he sem i => ?_) fun i sem => ?_
  · refine ⟨?_, ?_⟩
    · rintro rfl
      exact hwa sem (semEvents_comesFrom he)
    · rintro rfl
      obtain ⟨clocks, hclc⟩ := semEvents_comesFrom he
      exact hsch clocks hclc
  rcases h.moves.waitsFor_eq hsch with hsm | ⟨b, hmay, hru, hblo⟩
  · rw [hsm]
  · -- The call blocks the thread, but on something else.
    have hb : b ≠ .semaphore sem := by
      rintro rfl
      cases call with
      | semWait sem => exact hwa sem rfl
      | _ => exact hmay
    rw [hblo]
    split
    · rename_i hi
      rw [hi, hru]
      exact ⟨fun hsem => absurd hsem hb, nofun⟩
    · rfl

structure Conserved (log : List SemEvent) (s : Environment) : Prop where
  /-- The value is not negative, and what is left of the initial value and the posts. -/
  value : ∀ sem o, s.openSemaphores sem = some o → 0 ≤ o.value ∧ Accounts log sem o.value
  /-- A thread waits, suspended or not, exactly while it has not been granted a unit for its last wait. -/
  pending : ∀ i sem, log.count (.waits sem i) = log.count (.granted sem i) + if s.waitsFor i = .semaphore sem then 1 else 0
  /-- A unit that is there for a thread that waits keeps the scheduler from reporting a deadlock. -/
  live : ∀ (sem : Nat) (o : SemaphoreHostObject) (i : Nat) (th : Thread), s.openSemaphores sem = some o → 0 < o.value → s.threads[i]? = some th → th.active = true →
    th.blockedBy = .semaphore sem → ∀ clocks, s.scheduleNextThread clocks ≠ .error .deadlocked

theorem scheduleNextThread_not_deadlocked {o} {th}
    (hpe : s.openSemaphores sem = some o) (hpos : 0 < o.value) (hth : s.threads[i]? = some th)
    (hac : th.active = true) (hbl : th.blockedBy = .semaphore sem) (clocks : List Clock) :
    s.scheduleNextThread clocks ≠ .error .deadlocked := by
  intro heo
  obtain ⟨clock, -, hss⟩ := (scheduleNextThread_ends _ _).error heo
  cases hss with
  | candidate _ hss =>
    cases hss with
    | timeout _ _ _ _ _ _ _ hrsn => simp at hrsn
    | other hoh => cases hoh
  | deadlocked _ hbk =>
    have hin := mem_candidates (List.getElem?_eq_some_iff.mp hth).1
    have hnot := (hbk i hin).1
    simp [ready, hth, hac, hbl, hpe, hpos] at hnot

/-- In every run in which no post is made at the largest value. -/
theorem conserved_of_logs {mem : Nat → UInt8} {fileStreams : Nat → Option FileLock}
    (h : Logs Environment.call SemFits semEvents (start mem fileStreams) log s) : Conserved log s := by
  have hall : Inv s ∧ Sound log s ∧ Pending log s := by
    refine h.invariant (P := fun log s => Inv s ∧ Sound log s ∧ Pending log s) ⟨.start mem fileStreams, nofun, ?_⟩ ?_
    · intro i sem
      have hnot : (start mem fileStreams).waitsFor i = .notBlocked := by
        cases i <;> rfl
      rw [hnot]
      rfl
    · rintro log s t call r ⟨hinv, hsound, hpending⟩ hfits hcall
      have heffect := hinv.effect hcall
      refine ⟨hinv.steps (hinv.call_steps hcall), heffect.sems.sound hsound ?_ ?_, heffect.pending hpending⟩
      · intro sem value hes
        obtain rfl : call = .semInit sem value := semEvents_comesFrom (e := .initialised sem value) (hes ▸ mem_singleton_self _)
        exact hfits.2
      · intro sem o hes hpresent
        obtain rfl : call = .semPost sem := semEvents_comesFrom (e := .posted sem) (hes ▸ mem_singleton_self _)
        exact hfits.2 o hpresent
  exact ⟨hall.2.1, hall.2.2, fun sem o i th => scheduleNextThread_not_deadlocked⟩

end

/-- A thread finds no unit and waits; another posts one, which the scheduler has still to take for it. -/
theorem conserved_of_logs_posted : ∃ log s, Logs call SemFits semEvents (start (fun _ => 0) fun _ => none) log s ∧
    Accounts log 8 1 ∧ log.count (.waits 8 0) = log.count (.granted 8 0) + 1 ∧
      ∀ clocks, s.scheduleNextThread clocks ≠ .error .deadlocked := by
  obtain ⟨s, th, hrun, hvalue, hth, hactive, hblock⟩ : ∃ s th, Runs call SemFits (start (fun _ => 0) fun _ => none) s ∧
      s.openSemaphores 8 = some ⟨1, [0]⟩ ∧ s.threads[0]? = some th ∧ th.active = true ∧ th.blockedBy = .semaphore 8 :=
    ⟨_, _, .exec [.semInit 8 0, .newThread, .semWait 8, .schedule [⟨id, id⟩], .semPost 8] .start rfl,
      rfl, rfl, rfl, rfl⟩
  obtain ⟨log, hlog⟩ : ∃ log, Logs call SemFits semEvents (start (fun _ => 0) fun _ => none) log s := Logs.of_runs hrun
  have hconserved := conserved_of_logs hlog
  refine ⟨log, s, hlog, (hconserved.value 8 _ hvalue).2, ?_, ?_⟩
  · rw [hconserved.pending 0 8, waitsFor_of hth, hblock]
    rfl
  · exact hconserved.live 8 _ 0 th hvalue (by decide) hth hactive hblock

/-- A post at the largest value makes it negative. -/
theorem posts_past_largest :
    ∃ s o, exec call Enabled (start (fun _ => 0) fun _ => none) [.semInit 8 (2 ^ 31 - 1), .semPost 8] = some s ∧
      s.openSemaphores 8 = some o ∧ o.value = -2 ^ 31 := by
  refine ⟨_, _, rfl, rfl, ?_⟩
  decide

end TouchHLE.Environment
